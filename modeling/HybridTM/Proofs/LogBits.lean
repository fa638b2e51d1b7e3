import HybridTM.Proofs.Logs
import Mathlib.Logic.Basic

/-!
# Logs bit by bit

Conflicts are decided for single bits: a read log is at odds with memory when some bit that it took
has changed (`ReadLog.isConsistent_eq_false_iff`), and a read is answered from the buffer when every
bit it asks for is covered by a write (`WriteLog.lookup_covered_eq_iff`). Written back, a log
decides the bits that it covers and no others (`WriteLog.bit_writeBack_of_covers`,
`WriteLog.bit_writeBack_of_not_covers`).
-/

set_option autoImplicit false

namespace HybridTM

/-! ## Read logs -/

namespace ReadLog

/-- A read log holds the bit of a word with a value that was taken from memory. -/
def Took (log : ReadLog) (a : Addr) (b : Nat) (v : Bool) : Prop :=
  ∃ e ∈ log.entries, e.addr = a ∧ Word.bit e.mask b = true ∧ Word.bit e.value b = v

/-- Some entry of a read log differs from memory in a bit of its mask. -/
def Differs (log : ReadLog) (m : Memory) : Prop :=
  ∃ e ∈ log.entries, ∃ b, b < 64 ∧ Word.bit e.mask b = true ∧
    Word.bit (m.read e.addr) b ≠ Word.bit e.value b

variable {log : ReadLog} {m : Memory} {a c : Addr} {b : Nat} {v : Bool}

theorem not_took_empty : ¬ empty.Took a b v := by
  rintro ⟨e, he, -⟩
  cases Array.not_mem_empty e he

theorem took_record {w : Word} {mask : Mask} :
    (log.record c w mask).Took a b v ↔
      log.Took a b v ∨ c = a ∧ Word.bit mask b = true ∧ Word.bit w b = v := by
  constructor
  · rintro ⟨e, he, h⟩
    rcases Array.mem_push.1 he with he | rfl
    · exact Or.inl ⟨e, he, h⟩
    · exact Or.inr h
  · rintro (⟨e, he, h⟩ | h)
    · exact ⟨e, Array.mem_push.2 (Or.inl he), h⟩
    · exact ⟨_, Array.mem_push.2 (Or.inr rfl), h⟩

/-- An entry is no longer current once memory differs from it in a bit of its mask. -/
theorem isCurrent_eq_false_iff {e : ReadEntry} : e.isCurrent m = false ↔
    ∃ b, b < 64 ∧ Word.bit e.mask b = true ∧ Word.bit (m.read e.addr) b ≠ Word.bit e.value b := by
  rw [← Bool.not_eq_true, ReadEntry.isCurrent, beq_iff_eq, Word.eq_iff_bit]
  simp only [not_forall, Word.bit_and, Word.bit_xor, Word.bit_zero, exists_prop]
  refine exists_congr fun b => and_congr_right fun _ => ?_
  cases Word.bit e.mask b <;> cases Word.bit (m.read e.addr) b <;> cases Word.bit e.value b <;> simp

theorem isConsistent_eq_false_iff : log.isConsistent m = false ↔ log.Differs m := by
  rw [isConsistent, Array.all_eq_false']
  refine exists_congr fun e => and_congr_right fun _ => ?_
  rw [Bool.not_eq_true, isCurrent_eq_false_iff]

theorem isConsistent_iff_not_differs : log.isConsistent m = true ↔ ¬ log.Differs m := by
  rw [← isConsistent_eq_false_iff, Bool.not_eq_false]

/-- A read log differs from memory just when some bit it took does. -/
theorem differs_iff_took : log.Differs m ↔
    ∃ a b v, b < 64 ∧ log.Took a b v ∧ Word.bit (m.read a) b ≠ v := by
  constructor
  · rintro ⟨e, he, b, hb, hmask, hne⟩
    exact ⟨e.addr, b, _, hb, ⟨e, he, rfl, hmask, rfl⟩, hne⟩
  · rintro ⟨a, b, v, hb, ⟨e, he, rfl, hmask, rfl⟩, hne⟩
    exact ⟨e, he, b, hb, hmask, hne⟩

end ReadLog

/-! ## Write logs -/

namespace WriteLog

/-- The bit of a word is buffered. -/
def Covers (log : WriteLog) (a : Addr) (b : Nat) : Prop :=
  ∃ e, log.find? a = some e ∧ Word.bit e.mask b = true

variable {log : WriteLog} {a c : Addr} {b : Nat}

theorem not_covers_empty : ¬ empty.Covers a b := by
  rintro ⟨e, he, -⟩
  rw [find?_empty] at he
  cases he

theorem covers_insert {v : Word} {mask : Mask} : (log.insert c v mask).Covers a b ↔
    log.Covers a b ∨ c = a ∧ Word.bit mask b = true := by
  unfold Covers
  rw [find?_insert]
  by_cases hca : a = c
  · subst hca
    rw [if_pos rfl]
    cases log.find? a with
    | none => simp [entryAfter]
    | some e => simp [entryAfter, WriteEntry.overlay]
  · rw [if_neg hca]
    simp [Ne.symm hca]

/-- Of the bits asked for, those that are buffered are reported as covered. -/
theorem bit_covered {mask covered bits : Word} (h : log.lookup a mask = (bits, covered)) :
    Word.bit covered b = true ↔ log.Covers a b ∧ Word.bit mask b = true := by
  unfold lookup at h
  unfold Covers
  cases hfind : log.find? a with
  | none =>
    rw [hfind] at h
    obtain ⟨-, rfl⟩ := Prod.mk.inj h
    simp
  | some e =>
    rw [hfind] at h
    obtain ⟨-, rfl⟩ := Prod.mk.inj h
    simp

/-- The buffer answers for the whole mask just when it covers each of its bits. -/
theorem lookup_covered_eq_iff {mask covered bits : Word}
    (h : log.lookup a mask = (bits, covered)) :
    covered = mask ↔ ∀ b, b < 64 → Word.bit mask b = true → log.Covers a b := by
  rw [Word.eq_iff_bit]
  refine forall_congr' fun b => forall_congr' fun _ => ?_
  rw [Bool.eq_iff_iff, bit_covered h]
  exact ⟨fun h hmask => (h.2 hmask).1, fun h => ⟨And.right, fun hmask => ⟨h hmask, hmask⟩⟩⟩

/-- The bits that are left to be taken from memory. -/
theorem bit_remaining {mask covered bits : Word} (h : log.lookup a mask = (bits, covered))
    (hb : b < 64) :
    Word.bit (mask &&& ~~~covered) b = true ↔ Word.bit mask b = true ∧ ¬ log.Covers a b := by
  rw [Word.bit_and, Word.bit_not _ _ hb, Bool.and_eq_true, Bool.not_eq_true', ← Bool.not_eq_true,
    bit_covered h]
  exact and_congr_right fun hmask => not_congr (and_iff_left hmask)

/-- A bit that is not buffered stays as it was. -/
theorem bit_writeBack_of_not_covers (hb : b < 64) (h : ¬ log.Covers a b) (m : Memory) :
    Word.bit ((log.writeBack m).read a) b = Word.bit (m.read a) b := by
  rw [read_writeBack]
  cases hfind : log.find? a with
  | none => rfl
  | some e =>
    rw [Word.bit_merge _ _ _ _ hb, if_neg fun hmask => h ⟨e, hfind, hmask⟩]

/-- A bit that is buffered becomes the same in every memory. -/
theorem bit_writeBack_of_covers (hb : b < 64) (h : log.Covers a b) (m m' : Memory) :
    Word.bit ((log.writeBack m).read a) b = Word.bit ((log.writeBack m').read a) b := by
  obtain ⟨e, hfind, hmask⟩ := h
  simp only [read_writeBack, hfind]
  rw [Word.bit_merge _ _ _ _ hb, if_pos hmask, Word.bit_merge _ _ _ _ hb, if_pos hmask]

end WriteLog

end HybridTM
