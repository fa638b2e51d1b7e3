import Std.Data.HashMap
import HybridTM.Memory
import HybridTM.Word.Bits

/-!
# Write logs

A transaction buffers its writes: for each word written one entry with the pending bits
and the mask of the bits written so far, in the order of the first writes. A later write
to the same word is merged into its entry.

A look-up first asks a one-word filter of address slots. A short log is then searched in
order; a log of more than `WriteLog.indexThreshold` entries is searched through a hash
index, built when the log first grows past the threshold and kept up to date after that.
The type carries what makes the three ways agree, and `position_eq_some_iff` says that
they do.
-/

namespace HybridTM

/-- One buffered write. -/
structure WriteEntry where
  /-- The word written. -/
  addr : Addr
  /-- The pending bits; those outside the mask are zero. -/
  value : Word
  /-- The bits written so far. -/
  mask : Mask
  deriving DecidableEq, Repr

/-- The entry after a further write to its word. -/
def WriteEntry.overlay (e : WriteEntry) (v : Word) (mask : Mask) : WriteEntry :=
  { e with value := merge e.value v mask, mask := e.mask ||| mask }

/-- The filter bit of an address. -/
def addrSlot (a : Addr) : Word :=
  (1 : UInt64) <<< UInt64.ofNat (((a >>> 3) ^^^ (a >>> 9)) &&& 63)

/-- The number of entries up to which a write log is searched in order. -/
def WriteLog.indexThreshold : Nat := 16

/-- The buffered writes of a transaction, in the order of the first write to each word. -/
structure WriteLog where
  /-- One entry for each word written. -/
  entries : Array WriteEntry
  /-- The positions of the entries by address, once the log is long. -/
  index : Std.HashMap Addr Nat
  /-- The slots of the addresses written. -/
  filter : Word
  /-- No two entries are for the same word. -/
  distinct : ∀ i j (hi : i < entries.size) (hj : j < entries.size),
    entries[i].addr = entries[j].addr → i = j
  /-- Every address written has its slot in the filter. -/
  filtered : ∀ i (hi : i < entries.size), filter &&& addrSlot entries[i].addr ≠ 0
  /-- The index of a long log holds the position of every address written, and no other
  address. -/
  indexed : WriteLog.indexThreshold < entries.size →
    ∀ a p, index[a]? = some p ↔ ∃ hp : p < entries.size, entries[p].addr = a
  /-- No entry has a bit outside its mask. -/
  masked : ∀ i (hi : i < entries.size), entries[i].value &&& ~~~entries[i].mask = 0

/-! ## Facts about filters and entries -/

theorem addrSlot_ne_zero (a : Addr) : addrSlot a ≠ 0 := by
  have h : ((a >>> 3) ^^^ (a >>> 9)) &&& 63 < 64 :=
    Nat.lt_of_le_of_lt Nat.and_le_right (by omega)
  unfold addrSlot
  generalize ((a >>> 3) ^^^ (a >>> 9)) &&& 63 = s at h
  revert s
  decide

theorem filter_or_slot_ne_zero (f : Word) (a b : Addr)
    (h : f &&& addrSlot b ≠ 0 ∨ b = a) : (f ||| addrSlot a) &&& addrSlot b ≠ 0 := by
  intro e
  have bits : ∀ i,
      ((Word.bit f i || Word.bit (addrSlot a) i) && Word.bit (addrSlot b) i) = false := by
    intro i
    rw [← Word.bit_or, ← Word.bit_and, e, Word.bit_zero]
  rcases h with h | rfl
  · refine h (Word.ext_bit fun i _ => ?_)
    have := bits i
    rw [Word.bit_and, Word.bit_zero]
    cases hf : Word.bit f i <;> cases hb : Word.bit (addrSlot b) i <;> simp_all
  · refine addrSlot_ne_zero b (Word.ext_bit fun i _ => ?_)
    have := bits i
    rw [Word.bit_zero]
    cases hb : Word.bit (addrSlot b) i <;> simp_all

theorem WriteEntry.masked_overlay (e : WriteEntry) (v : Word) (mask : Mask)
    (h : e.value &&& ~~~e.mask = 0) :
    (e.overlay v mask).value &&& ~~~(e.overlay v mask).mask = 0 := by
  refine Word.ext_bit fun i hi => ?_
  have := congrArg (Word.bit · i) h
  simp only [Word.bit_and, Word.bit_not _ _ hi, Word.bit_zero] at this
  simp only [overlay, Word.bit_and, Word.bit_not _ _ hi, Word.bit_or,
    Word.bit_merge _ _ _ _ hi, Word.bit_zero]
  cases hm : Word.bit mask i <;> simp_all

theorem masked_and (v : Word) (mask : Mask) : (v &&& mask) &&& ~~~mask = 0 := by
  refine Word.ext_bit fun i hi => ?_
  simp only [Word.bit_and, Word.bit_not _ _ hi, Word.bit_zero]
  cases Word.bit mask i <;> simp

namespace WriteLog

/-! ## Looking up -/

/-- The log of a transaction that has written nothing. -/
def empty : WriteLog where
  entries := #[]
  index := ∅
  filter := 0
  distinct := by intro i j hi; exact absurd hi (Nat.not_lt_zero i)
  filtered := by intro i hi; exact absurd hi (Nat.not_lt_zero i)
  indexed := by intro h; exact absurd h (Nat.not_lt_zero _)
  masked := by intro i hi; exact absurd hi (Nat.not_lt_zero i)

/-- The position of the entry for a word. -/
def position (log : WriteLog) (a : Addr) : Option Nat :=
  if log.filter &&& addrSlot a = 0 then
    none
  else if indexThreshold < log.entries.size then
    log.index[a]?
  else
    log.entries.findIdx? (·.addr == a)

/-- However a log is searched, the search finds the one entry for the word, if there is
one. -/
theorem position_eq_some_iff {log : WriteLog} {a : Addr} {p : Nat} :
    log.position a = some p ↔
      ∃ hp : p < log.entries.size, log.entries[p].addr = a := by
  unfold position
  split
  · next hf =>
      -- The filter says no, and it holds the slot of every address written.
      constructor
      · intro h; cases h
      · rintro ⟨hp, rfl⟩
        exact absurd hf (log.filtered p hp)
  · split
    · next h => exact log.indexed h a p
    · -- A search in order finds the first entry, which is the only one.
      rw [Array.findIdx?_eq_some_iff_getElem]
      constructor
      · rintro ⟨hp, he, -⟩
        exact ⟨hp, by simpa using he⟩
      · rintro ⟨hp, he⟩
        refine ⟨hp, by simpa using he, fun j hj => ?_⟩
        intro hj'
        have hj'' : log.entries[j].addr = a := by simpa using hj'
        have := log.distinct j p (Nat.lt_trans hj hp) hp (hj''.trans he.symm)
        omega

theorem position_eq_none_iff {log : WriteLog} {a : Addr} :
    log.position a = none ↔
      ∀ p (hp : p < log.entries.size), log.entries[p].addr ≠ a := by
  constructor
  · intro h p hp he
    rw [position_eq_some_iff.2 ⟨hp, he⟩] at h
    cases h
  · intro h
    cases hq : log.position a with
    | none => rfl
    | some p =>
        obtain ⟨hp, he⟩ := position_eq_some_iff.1 hq
        exact absurd he (h p hp)

/-- The buffered write for a word. -/
def find? (log : WriteLog) (a : Addr) : Option WriteEntry :=
  (log.position a).bind fun p => log.entries[p]?

/-- The buffered bits of a word, and which of the asked bits are buffered. -/
def lookup (log : WriteLog) (a : Addr) (mask : Mask) : Word × Mask :=
  match log.find? a with
  | some e => (e.value, e.mask &&& mask)
  | none => (0, 0)

/-- The number of words written. -/
def size (log : WriteLog) : Nat := log.entries.size

/-- Whether nothing was written. -/
def isEmpty (log : WriteLog) : Bool := log.entries.isEmpty

/-! ## Writing -/

/-- The log after a further write to a word that has an entry at `p`. -/
def overlayAt (log : WriteLog) (p : Nat) (v : Word) (mask : Mask) : WriteLog where
  entries := log.entries.modify p (·.overlay v mask)
  index := log.index
  filter := log.filter
  distinct := by
    intro i j hi hj h
    simp only [Array.size_modify] at hi hj
    refine log.distinct i j hi hj ?_
    simp only [Array.getElem_modify] at h
    split at h <;> split at h <;> exact h
  filtered := by
    intro i hi
    simp only [Array.size_modify] at hi
    simp only [Array.getElem_modify]
    split <;> exact log.filtered i hi
  indexed := by
    intro h a q
    simp only [Array.size_modify] at h ⊢
    rw [log.indexed h a q]
    constructor
    · rintro ⟨hq, he⟩
      refine ⟨hq, ?_⟩
      simp only [Array.getElem_modify]
      split <;> exact he
    · rintro ⟨hq, he⟩
      refine ⟨hq, ?_⟩
      simp only [Array.getElem_modify] at he
      split at he <;> exact he
  masked := by
    intro i hi
    simp only [Array.size_modify] at hi
    simp only [Array.getElem_modify]
    split
    · exact WriteEntry.masked_overlay _ v mask (log.masked i hi)
    · exact log.masked i hi

/-- The positions of entries by address. -/
def indexOf (entries : Array WriteEntry) : Std.HashMap Addr Nat :=
  .ofList (entries.mapIdx fun p e => (e.addr, p)).toList

/-- The index after the entries grew by one for `a`: none is kept for a short log, it is
built from all entries when the log grows past the threshold, and takes one more position
after that. -/
def grownIndex (index : Std.HashMap Addr Nat) (entries : Array WriteEntry) (a : Addr) :
    Std.HashMap Addr Nat :=
  if entries.size = indexThreshold + 1 then
    indexOf entries
  else if indexThreshold < entries.size then
    index.insert a (entries.size - 1)
  else
    index

theorem indexOf_getElem? {entries : Array WriteEntry}
    (distinct : ∀ i j (hi : i < entries.size) (hj : j < entries.size),
      entries[i].addr = entries[j].addr → i = j) (a : Addr) (p : Nat) :
    (indexOf entries)[a]? = some p ↔ ∃ hp : p < entries.size, entries[p].addr = a := by
  have pairwise : (entries.mapIdx fun p e => (e.addr, p)).toList.Pairwise
      (fun x y => (x.1 == y.1) = false) := by
    rw [List.pairwise_iff_getElem]
    intro i j hi hj hij
    simp only [Array.length_toList, Array.size_mapIdx] at hi hj
    simp only [Array.getElem_toList, Array.getElem_mapIdx, beq_eq_false_iff_ne]
    intro h
    have := distinct i j hi hj h
    omega
  constructor
  · intro h
    by_cases hc : ∃ q, ∃ hq : q < entries.size, entries[q].addr = a
    · obtain ⟨q, hq, hqa⟩ := hc
      have hm : (a, q) ∈ (entries.mapIdx fun p e => (e.addr, p)).toList := by
        rw [Array.mem_toList_iff, Array.mem_iff_getElem]
        exact ⟨q, by simpa using hq, by simp [hqa]⟩
      have he : (indexOf entries)[a]? = some q :=
        Std.HashMap.getElem?_ofList_of_mem (BEq.refl a) pairwise hm
      rw [he] at h
      cases h
      exact ⟨hq, hqa⟩
    · -- No entry is for the address, so the list that made the index has no such key.
      rw [indexOf, Std.HashMap.getElem?_ofList_of_contains_eq_false] at h
      · cases h
      · rw [Bool.eq_false_iff]
        intro hmem
        simp only [List.contains_eq_mem, List.mem_map, decide_eq_true_eq] at hmem
        obtain ⟨x, hx, hxa⟩ := hmem
        rw [Array.mem_toList_iff, Array.mem_iff_getElem] at hx
        obtain ⟨q, hq, rfl⟩ := hx
        simp only [Array.size_mapIdx] at hq
        simp only [Array.getElem_mapIdx] at hxa
        exact hc ⟨q, hq, hxa⟩
  · rintro ⟨hp, he⟩
    refine Std.HashMap.getElem?_ofList_of_mem (BEq.refl a) pairwise ?_
    rw [Array.mem_toList_iff, Array.mem_iff_getElem]
    exact ⟨p, by simpa using hp, by simp [he]⟩

/-- The log after the first write to a word. -/
def append (log : WriteLog) (a : Addr) (v : Word) (mask : Mask)
    (fresh : ∀ p (hp : p < log.entries.size), log.entries[p].addr ≠ a) : WriteLog :=
  let entries := log.entries.push ⟨a, v &&& mask, mask⟩
  have distinct : ∀ i j (hi : i < entries.size) (hj : j < entries.size),
      entries[i].addr = entries[j].addr → i = j := by
    intro i j hi hj h
    simp only [entries, Array.size_push] at hi hj
    simp only [entries, Array.getElem_push] at h
    split at h <;> split at h
    · next hi' hj' => exact log.distinct i j hi' hj' h
    · next hi' _ => exact absurd h (fresh i hi')
    · next _ hj' => exact absurd h.symm (fresh j hj')
    · omega
  { entries
    index := grownIndex log.index entries a
    filter := log.filter ||| addrSlot a
    distinct
    filtered := by
      intro i hi
      simp only [entries, Array.size_push] at hi
      simp only [entries, Array.getElem_push]
      split
      · next hi' => exact filter_or_slot_ne_zero _ _ _ (.inl (log.filtered i hi'))
      · exact filter_or_slot_ne_zero _ _ _ (.inr rfl)
    indexed := by
      intro h b p
      unfold grownIndex
      split
      · exact indexOf_getElem? distinct b p
      · next hne =>
          -- The log was long before, so its index was right and takes one more position.
          have hlong : indexThreshold < log.entries.size := by
            simp only [entries, Array.size_push] at h hne
            omega
          have hsize : entries.size - 1 = log.entries.size := by
            simp only [entries, Array.size_push]
            omega
          rw [Std.HashMap.getElem?_insert, hsize]
          by_cases hb : a = b
          · subst hb
            rw [if_pos (by simp), Option.some.injEq]
            constructor
            · rintro rfl
              exact ⟨by simp [entries], by simp [entries]⟩
            · rintro ⟨hp, he⟩
              simp only [entries, Array.size_push] at hp
              simp only [entries, Array.getElem_push] at he
              split at he
              · next hp' => exact absurd he (fresh p hp')
              · omega
          · rw [if_neg (by simpa using hb), log.indexed hlong b p]
            constructor
            · rintro ⟨hp, he⟩
              refine ⟨by simp only [entries, Array.size_push]; omega, ?_⟩
              simp only [entries, Array.getElem_push, hp, dif_pos]
              exact he
            · rintro ⟨hp, he⟩
              simp only [entries, Array.getElem_push] at he
              split at he
              · next hp' => exact ⟨hp', he⟩
              · exact absurd he hb
    masked := by
      intro i hi
      simp only [entries, Array.size_push] at hi
      simp only [entries, Array.getElem_push]
      split
      · next hi' => exact log.masked i hi'
      · exact masked_and v mask }

/-- The log after a write of the masked bits of `v` to the word at `a`. -/
def insert (log : WriteLog) (a : Addr) (v : Word) (mask : Mask) : WriteLog :=
  match h : log.position a with
  | some p => log.overlayAt p v mask
  | none => log.append a v mask (position_eq_none_iff.1 h)

/-- The memory after every buffered write took effect. -/
def writeBack (log : WriteLog) (m : Memory) : Memory :=
  log.entries.foldl (fun m e => m.store e.addr e.value e.mask) m

end WriteLog

end HybridTM
