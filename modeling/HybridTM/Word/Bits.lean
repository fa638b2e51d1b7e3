import HybridTM.Word

/-!
# Words bit by bit

Two words are equal when their 64 bits agree (`Word.ext_bit`), and every operation on
words and masks that the library uses has a law that says what it does to one bit
(`bit_and`, `bit_or`, `bit_xor`, `bit_not`, `bit_merge`). Laws of masked reads and writes
follow from these by cases on truth values.
-/

namespace HybridTM

/-- Bit `i` of a word; bits past the end are false. -/
def Word.bit (w : Word) (i : Nat) : Bool := w.toBitVec.getLsbD i

namespace Word

/-- Words with the same bits are equal. -/
theorem ext_bit {v w : Word} (h : ∀ i, i < 64 → bit v i = bit w i) : v = w :=
  UInt64.eq_of_toBitVec_eq (BitVec.eq_of_getLsbD_eq fun i hi => h i hi)

@[simp]
theorem bit_zero (i : Nat) : bit 0 i = false := by
  simp [bit]

@[simp]
theorem bit_and (v w : Word) (i : Nat) : bit (v &&& w) i = (bit v i && bit w i) := by
  simp [bit]

@[simp]
theorem bit_or (v w : Word) (i : Nat) : bit (v ||| w) i = (bit v i || bit w i) := by
  simp [bit]

@[simp]
theorem bit_xor (v w : Word) (i : Nat) : bit (v ^^^ w) i = (bit v i ^^ bit w i) := by
  simp [bit]

theorem bit_not (v : Word) (i : Nat) (h : i < 64) : bit (~~~v) i = !bit v i := by
  simp [bit, h]

theorem bit_fullMask (i : Nat) (h : i < 64) : bit fullMask i = true := by
  have e : fullMask = ~~~0 := by decide
  rw [e, bit_not _ _ h, bit_zero]
  rfl

/-- An overlay takes each bit from the update where the mask is set and from the base
elsewhere. -/
theorem bit_merge (base update : Word) (mask : Mask) (i : Nat) (h : i < 64) :
    bit (merge base update mask) i = if bit mask i then bit update i else bit base i := by
  simp only [merge, bit_or, bit_and, bit_not _ _ h]
  cases bit mask i <;> simp

end Word

/-- An overlay of every bit is the update. -/
@[simp]
theorem merge_fullMask (base update : Word) : merge base update fullMask = update := by
  refine Word.ext_bit fun i hi => ?_
  rw [Word.bit_merge _ _ _ _ hi, Word.bit_fullMask i hi, if_pos rfl]

/-- An overlay of no bit is the base. -/
@[simp]
theorem merge_zero (base update : Word) : merge base update 0 = base := by
  refine Word.ext_bit fun i hi => ?_
  rw [Word.bit_merge _ _ _ _ hi, Word.bit_zero, if_neg Bool.false_ne_true]

/-- One mask covers another when it selects every bit the other selects. -/
theorem covers_iff {outer inner : Mask} :
    covers outer inner = true ↔
      ∀ i, i < 64 → Word.bit inner i = true → Word.bit outer i = true := by
  simp only [covers, beq_iff_eq]
  constructor
  · intro h i _ hin
    rw [← h, Word.bit_and, Bool.and_eq_true] at hin
    exact hin.1
  · intro h
    refine Word.ext_bit fun i hi => ?_
    rw [Word.bit_and]
    cases hin : Word.bit inner i with
    | false => simp
    | true => simp [h i hi hin]

end HybridTM
