import HybridTM.Log.Reads
import HybridTM.Log.Writes
import HybridTM.Proofs.Access

/-!
# What the logs of a transaction say

A write log stands for the writes it was given: written back, it changes every word by the one
entry it has for it (`read_writeBack`), and a further write to the log is a further write to memory
(`writeBack_insert`). A read log stands for the memories it is consistent with. Together they
account for a run of accesses (`Records`), and each access that is taken from the logs and from
memory extends the account (`Records.buffered`, `Records.fetched`, `Records.write`).
-/

set_option autoImplicit false

namespace HybridTM

namespace WriteLog

variable {log : WriteLog}

/-! ## The entry of a word -/

theorem find?_eq_some_iff {a : Addr} {e : WriteEntry} :
    log.find? a = some e ↔
      ∃ p, ∃ hp : p < log.entries.size, log.entries[p] = e ∧ e.addr = a := by
  unfold find?
  constructor
  · intro h
    obtain ⟨p, hpos, he⟩ := Option.bind_eq_some_iff.1 h
    obtain ⟨hp, ha⟩ := position_eq_some_iff.1 hpos
    rw [Array.getElem?_eq_getElem hp, Option.some.injEq] at he
    exact ⟨p, hp, he, by rw [← he, ha]⟩
  · rintro ⟨p, hp, rfl, ha⟩
    rw [position_eq_some_iff.2 ⟨hp, ha⟩, Option.bind_some, Array.getElem?_eq_getElem hp]

theorem find?_eq_none_iff {a : Addr} :
    log.find? a = none ↔ ∀ p (hp : p < log.entries.size), log.entries[p].addr ≠ a := by
  constructor
  · intro h p hp ha
    rw [find?_eq_some_iff.2 ⟨p, hp, rfl, ha⟩] at h
    cases h
  · intro h
    cases he : log.find? a with
    | none => rfl
    | some e =>
      obtain ⟨p, hp, hpe, ha⟩ := find?_eq_some_iff.1 he
      exact absurd (by rw [hpe, ha]) (h p hp)

@[simp]
theorem find?_empty (a : Addr) : empty.find? a = none :=
  find?_eq_none_iff.2 fun _ hp => absurd hp (Nat.not_lt_zero _)

/-- The entry of a word after a write to it. -/
def entryAfter (old : Option WriteEntry) (a : Addr) (v : Word) (mask : Mask) : WriteEntry :=
  match old with
  | some e => e.overlay v mask
  | none => ⟨a, v &&& mask, mask⟩

/-- A write changes the entry of its own word and of no other. -/
theorem find?_insert (a b : Addr) (v : Word) (mask : Mask) :
    (log.insert a v mask).find? b =
      if b = a then some (entryAfter (log.find? a) a v mask) else log.find? b := by
  unfold insert
  split
  · next p hpos =>
    -- The word has an entry already, which takes the write.
    obtain ⟨hp, ha⟩ := position_eq_some_iff.1 hpos
    have old : log.find? a = some log.entries[p] := find?_eq_some_iff.2 ⟨p, hp, rfl, ha⟩
    by_cases hb : b = a
    · subst hb
      rw [if_pos rfl, old]
      refine find?_eq_some_iff.2 ⟨p, by simpa [overlayAt] using hp, ?_, ha⟩
      simp [overlayAt, entryAfter, Array.getElem_modify]
    · rw [if_neg hb]
      apply Option.ext
      intro e
      rw [find?_eq_some_iff, find?_eq_some_iff]
      simp only [overlayAt, Array.size_modify, Array.getElem_modify]
      constructor
      · rintro ⟨q, hq, rfl, hqb⟩
        split at hqb
        · next hpq => subst hpq; exact absurd (hqb.symm.trans ha) hb
        · next hpq => exact ⟨q, hq, by rw [if_neg hpq], by rw [if_neg hpq]; exact hqb⟩
      · rintro ⟨q, hq, rfl, hqb⟩
        have hpq : p ≠ q := by rintro rfl; exact hb (hqb.symm.trans ha)
        exact ⟨q, hq, if_neg hpq, hqb⟩
  · next hpos =>
    -- The word has no entry yet and gets one at the end.
    have fresh := position_eq_none_iff.1 hpos
    have old : log.find? a = none := find?_eq_none_iff.2 fresh
    by_cases hb : b = a
    · subst hb
      rw [if_pos rfl, old]
      exact find?_eq_some_iff.2 ⟨log.entries.size, by simp [append], by simp [append, entryAfter],
        rfl⟩
    · rw [if_neg hb]
      apply Option.ext
      intro e
      rw [find?_eq_some_iff, find?_eq_some_iff]
      simp only [append, Array.size_push, Array.getElem_push]
      constructor
      · rintro ⟨q, hq, rfl, hqb⟩
        split at hqb
        · next hq' => exact ⟨q, hq', by rw [dif_pos hq'], by rw [dif_pos hq']; exact hqb⟩
        · exact absurd hqb.symm hb
      · rintro ⟨q, hq, rfl, hqb⟩
        exact ⟨q, Nat.lt_succ_of_lt hq, dif_pos hq, hqb⟩

/-! ## Writing back -/

theorem read_foldl_store_of_not_mem {es : List WriteEntry} {a : Addr} (h : ∀ e ∈ es, e.addr ≠ a)
    (m : Memory) : (es.foldl (fun m e => m.store e.addr e.value e.mask) m).read a = m.read a := by
  induction es generalizing m with
  | nil => rfl
  | cons e es ih =>
    rw [List.foldl_cons, ih fun f hf => h f (List.mem_cons_of_mem e hf), Memory.read_store,
      if_neg (h e List.mem_cons_self).symm]

theorem read_foldl_store_of_mem {es : List WriteEntry} (distinct : (es.map (·.addr)).Nodup)
    {e : WriteEntry} (he : e ∈ es) (m : Memory) :
    (es.foldl (fun m e => m.store e.addr e.value e.mask) m).read e.addr =
      merge (m.read e.addr) e.value e.mask := by
  induction es generalizing m with
  | nil => cases he
  | cons f es ih =>
    rw [List.map_cons, List.nodup_cons] at distinct
    obtain ⟨hf, hes⟩ := distinct
    have others : ∀ g ∈ es, g.addr ≠ f.addr := fun g hg hgf =>
      hf (hgf ▸ List.mem_map_of_mem hg)
    rw [List.foldl_cons]
    rcases List.mem_cons.1 he with rfl | he
    · rw [read_foldl_store_of_not_mem others, Memory.read_store, if_pos rfl]
    · rw [ih hes he, Memory.read_store, if_neg (others e he)]

theorem nodup_addr (log : WriteLog) : (log.entries.toList.map (·.addr)).Nodup := by
  rw [List.Nodup, List.pairwise_map, List.pairwise_iff_getElem]
  intro i j hi hj hij h
  have hi' : i < log.entries.size := by simpa using hi
  have hj' : j < log.entries.size := by simpa using hj
  have := log.distinct i j hi' hj' (by simpa using h)
  omega

/-- Written back, a log overlays each word with its entry and leaves the others alone. -/
theorem read_writeBack (log : WriteLog) (m : Memory) (a : Addr) :
    (log.writeBack m).read a =
      match log.find? a with
      | some e => merge (m.read a) e.value e.mask
      | none => m.read a := by
  unfold writeBack
  rw [← Array.foldl_toList]
  cases he : log.find? a with
  | none =>
    apply read_foldl_store_of_not_mem
    intro e hmem
    obtain ⟨p, hp, rfl⟩ := Array.mem_iff_getElem.1 (Array.mem_toList_iff.1 hmem)
    exact find?_eq_none_iff.1 he p hp
  | some e =>
    obtain ⟨p, hp, hpe, rfl⟩ := find?_eq_some_iff.1 he
    refine read_foldl_store_of_mem log.nodup_addr ?_ m
    rw [Array.mem_toList_iff, ← hpe]
    exact Array.getElem_mem hp

/-- A log without an entry for a word leaves the word alone. -/
theorem read_writeBack_of_find?_eq_none {a : Addr} (h : log.find? a = none) (m : Memory) :
    (log.writeBack m).read a = m.read a := by
  rw [read_writeBack, h]

@[simp]
theorem writeBack_empty (m : Memory) : empty.writeBack m = m := by
  apply Memory.ext
  funext a
  exact read_writeBack_of_find?_eq_none (find?_empty a) m

/-- A further write to the log is a further write to the memory it is written back to. -/
theorem writeBack_insert (log : WriteLog) (m : Memory) (a : Addr) (v : Word) (mask : Mask) :
    (log.insert a v mask).writeBack m = (log.writeBack m).store a v mask := by
  apply Memory.ext
  funext b
  rw [read_writeBack, find?_insert, Memory.read_store]
  by_cases hb : b = a
  · subst hb
    rw [if_pos rfl, if_pos rfl, read_writeBack]
    apply Word.ext_bit
    intro i hi
    cases log.find? b with
    | none =>
      simp only [entryAfter, Word.bit_merge _ _ _ _ hi, Word.bit_and]
      cases Word.bit mask i <;> simp
    | some e =>
      simp only [entryAfter, WriteEntry.overlay, Word.bit_merge _ _ _ _ hi, Word.bit_or]
      cases Word.bit mask i <;> cases Word.bit e.mask i <;> simp
  · rw [if_neg hb, if_neg hb, read_writeBack]

end WriteLog

/-! ## What a masked read finds -/

/-- Words are equal just when their bits are. -/
theorem Word.eq_iff_bit {v w : Word} : v = w ↔ ∀ i, i < 64 → Word.bit v i = Word.bit w i :=
  ⟨fun h _ _ => by rw [h], Word.ext_bit⟩

namespace WriteLog

/-- When every asked bit is buffered, the buffer answers for any memory. -/
theorem and_mask_of_lookup {log : WriteLog} {a : Addr} {mask buffered : Word}
    (h : log.lookup a mask = (buffered, mask)) (m : Memory) :
    buffered &&& mask = (log.writeBack m).read a &&& mask := by
  rw [read_writeBack]
  unfold lookup at h
  cases he : log.find? a with
  | none =>
    rw [he] at h
    obtain ⟨rfl, rfl⟩ := Prod.mk.inj h
    simp
  | some e =>
    rw [he] at h
    obtain ⟨rfl, hmask⟩ := Prod.mk.inj h
    apply Word.ext_bit
    intro i hi
    have hbit := congrArg (Word.bit · i) hmask
    simp only [Word.bit_and] at hbit
    simp only [Word.bit_and, Word.bit_merge _ _ _ _ hi]
    cases hm : Word.bit mask i <;> cases hem : Word.bit e.mask i <;> simp_all

/-- When some asked bits are not buffered and come from a value, the result is right for exactly
the memories that hold these bits of the value. -/
theorem merge_lookup_eq_iff {log : WriteLog} {a : Addr} {mask buffered covered : Word}
    (h : log.lookup a mask = (buffered, covered)) (m : Memory) (v : Word) :
    merge (v &&& (mask &&& ~~~covered)) buffered covered = (log.writeBack m).read a &&& mask ↔
      (m.read a ^^^ v) &&& (mask &&& ~~~covered) = 0 := by
  rw [read_writeBack, Word.eq_iff_bit, Word.eq_iff_bit]
  refine forall_congr' fun i => forall_congr' fun hi => ?_
  unfold lookup at h
  cases he : log.find? a with
  | none =>
    rw [he] at h
    obtain ⟨rfl, rfl⟩ := Prod.mk.inj h
    simp only [Word.bit_merge _ _ _ _ hi, Word.bit_and, Word.bit_xor, Word.bit_not _ _ hi,
      Word.bit_zero]
    cases Word.bit mask i <;> cases Word.bit v i <;> cases Word.bit (m.read a) i <;> simp
  | some e =>
    rw [he] at h
    obtain ⟨rfl, rfl⟩ := Prod.mk.inj h
    simp only [Word.bit_merge _ _ _ _ hi, Word.bit_and, Word.bit_xor, Word.bit_not _ _ hi,
      Word.bit_zero]
    cases Word.bit mask i <;> cases Word.bit e.mask i <;> cases Word.bit v i <;>
      cases Word.bit (m.read a) i <;> simp

/-- A memory that answers for the asked bits that are not buffered shows what it is with the log
written back. -/
theorem merge_lookup {log : WriteLog} {a : Addr} {mask buffered covered : Word}
    (h : log.lookup a mask = (buffered, covered)) (m : Memory) :
    merge (m.read a &&& (mask &&& ~~~covered)) buffered covered =
      (log.writeBack m).read a &&& mask :=
  (merge_lookup_eq_iff h m _).2 (by simp)

end WriteLog

/-! ## Logs that account for a run of accesses -/

/-- A write log holds the writes of a run of accesses. -/
def WriteLog.Holds (writes : WriteLog) (t : List Access) : Prop :=
  ∀ m, writes.writeBack m = after t m

/-- The logs account for a run of accesses: the write log holds its writes, and the read log is
consistent with the memories that the run agrees with. -/
structure Records (t : List Access) (reads : ReadLog) (writes : WriteLog) : Prop where
  /-- The writes are buffered. -/
  holds : writes.Holds t
  /-- The bits taken from memory are logged. -/
  consistent : ∀ m, reads.isConsistent m = true ↔ Agrees t m

theorem WriteLog.holds_empty : WriteLog.empty.Holds [] :=
  fun m => WriteLog.writeBack_empty m

theorem WriteLog.Holds.read {writes : WriteLog} {t : List Access} (h : writes.Holds t) (a : Addr)
    (mask : Mask) (result : Except TxError Word) : writes.Holds (t ++ [.read a mask result]) := by
  intro m
  rw [after_concat, h m]
  rfl

theorem WriteLog.Holds.write {writes : WriteLog} {t : List Access} (h : writes.Holds t) (a : Addr)
    (v : Word) (mask : Mask) : (writes.insert a v mask).Holds (t ++ [.write a v mask]) := by
  intro m
  rw [WriteLog.writeBack_insert, after_concat, h m]
  rfl

namespace Records

variable {t : List Access} {reads : ReadLog} {writes : WriteLog}

theorem empty : Records [] .empty .empty where
  holds := WriteLog.holds_empty
  consistent m := by simp [Agrees]

/-- A read that is answered from the buffer is not logged. -/
theorem buffered (R : Records t reads writes) {a : Addr} {mask bits : Word}
    (h : writes.lookup a mask = (bits, mask)) :
    Records (t ++ [.read a mask (.ok (bits &&& mask))]) reads writes where
  holds := R.holds.read a mask _
  consistent m := by
    rw [R.consistent m, agrees_read_concat, ← R.holds m]
    exact (and_iff_left (WriteLog.and_mask_of_lookup h m)).symm

/-- A read that takes bits from memory logs these bits. -/
theorem fetched (R : Records t reads writes) {a : Addr} {mask bits covered : Word}
    (h : writes.lookup a mask = (bits, covered)) (v : Word) :
    Records (t ++ [.read a mask (.ok (merge (v &&& (mask &&& ~~~covered)) bits covered))])
      (reads.record a v (mask &&& ~~~covered)) writes where
  holds := R.holds.read a mask _
  consistent m := by
    rw [ReadLog.isConsistent_record, Bool.and_eq_true, R.consistent m, agrees_read_concat,
      ← R.holds m, WriteLog.merge_lookup_eq_iff h, ReadEntry.isCurrent, beq_iff_eq]

/-- A read that fails leaves nothing behind. -/
theorem failed (R : Records t reads writes) (a : Addr) (mask : Mask) (e : TxError) :
    Records (t ++ [.read a mask (.error e)]) reads writes where
  holds := R.holds.read a mask _
  consistent m := by rw [R.consistent m, agrees_failure_concat]

theorem write (R : Records t reads writes) (a : Addr) (v : Word) (mask : Mask) :
    Records (t ++ [.write a v mask]) reads (writes.insert a v mask) where
  holds := R.holds.write a v mask
  consistent m := by rw [R.consistent m, agrees_write_concat]

end Records

end HybridTM
