import HybridTM.Proofs.AllOrNothing
import HybridTM.Proofs.PathEquivalence
import Mathlib.Data.Finset.Dedup

/-!
# What counts toward the capacity

The footprint of a body is what it takes from memory, word by word and each time anew, and the words
that it writes, each of them once (`Footprint`). A read that finds all of its bits pending takes
nothing.

The first access that fails does so for want of capacity just if the footprint exceeds the capacity
with it, and otherwise because of what others have published (`RegionDiary.metered_of_reachable`).
So a body that touches more words than the capacity always exceeds it. One that does not may exceed
it all the same, but only if it takes bits of some word from memory more than once.
-/

set_option autoImplicit false

namespace HybridTM

/-! ## Footprints -/

/-- What a body asks for. -/
structure Footprint where
  /-- The words that bits are taken of from memory, with repetitions. -/
  fetched : List Addr
  /-- What is written. -/
  pending : PendingWrites

namespace Footprint

/-- Nothing. -/
def empty : Footprint := ⟨[], .empty⟩

/-- With one more event, if it is an access. -/
def add (F : Footprint) : RegionEvent → Footprint
  | .read a mask _ =>
      if F.pending.bits a &&& mask = mask then F else { F with fetched := F.fetched ++ [a] }
  | .write a v mask _ => { F with pending := F.pending.insert a v mask }
  | _ => F

/-- The footprint of the accesses among events. -/
def of (notes : List RegionEvent) : Footprint := notes.foldl add empty

/-- How much of the capacity it takes. -/
def size (F : Footprint) : Nat := F.fetched.length + F.pending.order.length

/-- The words that bits are taken of from memory. -/
def wordsRead (F : Footprint) : Finset Addr := F.fetched.toFinset

/-- The words that are written. -/
def wordsWritten (F : Footprint) : Finset Addr := F.pending.order.toFinset

end Footprint

/-! ## What is promised -/

namespace RegionDiary

variable {ι : Type}

/-- How executions are held to a capacity. -/
structure Metered (c : Nat) (d : RegionDiary ι) : Prop where
  /-- As long as no access has failed the footprint is within the capacity. -/
  fits : ∀ i, (∀ x ∈ d.notes i, x.failure? = none) → (Footprint.of (d.notes i)).size ≤ c
  /-- The first access that fails, unless the body has aborted the region before, fails for want of
  capacity if the footprint exceeds the capacity with it, and otherwise by a conflict. -/
  first : ∀ i before x after abort, d.notes i = before ++ x :: after →
    (∀ y ∈ before, y.doom? = none) → x.failure? = some abort →
    abort = if c < (Footprint.of (before ++ [x])).size then .capacity else .conflict
  /-- There is no conflict unless something was published since the region began. -/
  disturbed : ∀ i x, x ∈ d.notes i → x.failure? = some .conflict →
    d.system.since i < d.system.history.count
  /-- Without conflicts, and if the body does not abort the region, some access fails for want of
  capacity just if the footprint exceeds the capacity. -/
  exceeds : ∀ i, (∀ x ∈ d.notes i, x.failure? ≠ some .conflict) →
    (∀ code, .aborted code ∉ d.notes i) →
    ((∃ x ∈ d.notes i, x.failure? = some .capacity) ↔ c < (Footprint.of (d.notes i)).size)
  /-- Then this is reported. -/
  reported : ∀ i x, x ∈ d.notes i → x.failure? = some .capacity →
    (∀ code, .aborted code ∉ d.notes i) → ∀ result, d.system.execution i = .done result →
    result = .error .capacity
  /-- If nothing has doomed the region, then a fault, an error of the body or what was found in the
  end explains an abort. -/
  otherwise : ∀ i, (∀ x ∈ d.notes i, x.doom? = none) → ∀ abort,
    d.system.execution i = .done (.error abort) → .refused abort ∈ d.notes i ∨
      (∃ err, .returned (.error err) ∈ d.notes i ∧ abort = err.toAbort) ∨
      (.judged false ∈ d.notes i ∧ abort = .conflict)
  /-- More words read and written than the capacity always exceed it. -/
  many : ∀ i, (∀ x ∈ d.notes i, x.failure? ≠ some .conflict) → (∀ code, .aborted code ∉ d.notes i) →
    c < (Footprint.of (d.notes i)).wordsRead.card + (Footprint.of (d.notes i)).wordsWritten.card →
    ∃ x ∈ d.notes i, x.failure? = some .capacity
  /-- No more than that never do if no word is taken from memory twice. -/
  few : ∀ i, (∀ x ∈ d.notes i, x.failure? ≠ some .conflict) → (∀ code, .aborted code ∉ d.notes i) →
    (Footprint.of (d.notes i)).fetched.Nodup →
    (Footprint.of (d.notes i)).wordsRead.card + (Footprint.of (d.notes i)).wordsWritten.card ≤ c →
    ∀ x ∈ d.notes i, x.failure? = none

end RegionDiary

/-! ## Footprints of events -/

namespace Footprint

variable {F : Footprint} {notes : List RegionEvent} {a : Addr} {v : Word} {mask : Mask}

theorem of_concat (notes : List RegionEvent) (x : RegionEvent) :
    of (notes ++ [x]) = (of notes).add x := List.foldl_concat ..

theorem add_of_not_isAccess {x : RegionEvent} (h : x.isAccess = false) : F.add x = F := by
  cases x <;> first | rfl | cases h

theorem add_read_of_covered (h : F.pending.bits a &&& mask = mask)
    (result : Except HardwareAbort Word) : F.add (.read a mask result) = F := if_pos h

theorem add_read_of_uncovered (h : F.pending.bits a &&& mask ≠ mask)
    (result : Except HardwareAbort Word) :
    F.add (.read a mask result) = { F with fetched := F.fetched ++ [a] } := if_neg h

theorem size_add_read (h : F.pending.bits a &&& mask ≠ mask) (result : Except HardwareAbort Word) :
    (F.add (.read a mask result)).size = F.size + 1 := by
  rw [add_read_of_uncovered h, size, size, List.length_append, List.length_singleton]
  exact Nat.add_right_comm ..

theorem size_add_write (F : Footprint) (a : Addr) (v : Word) (mask : Mask)
    (result : Except HardwareAbort Unit) :
    (F.add (.write a v mask result)).size = F.size + if a ∈ F.pending.order then 0 else 1 := by
  show F.fetched.length + (F.pending.insert a v mask).order.length = _
  rw [size, PendingWrites.insert]
  split
  · rfl
  · rw [List.length_append]
    rfl

/-- Events never make a footprint smaller. -/
theorem size_le_append (notes rest : List RegionEvent) :
    (of notes).size ≤ (of (notes ++ rest)).size := by
  induction rest using List.reverseRecOn with
  | nil => rw [List.append_nil]
  | append_singleton rest x ih =>
    rw [← List.append_assoc, of_concat]
    refine ih.trans ?_
    cases x with
    | read a mask result =>
      by_cases hcovered : (of (notes ++ rest)).pending.bits a &&& mask = mask
      · rw [add_read_of_covered hcovered]
      · rw [size_add_read hcovered]
        exact Nat.le_succ _
    | write a v mask result =>
      rw [size_add_write]
      exact Nat.le_add_right _ _
    | refused | entered | aborted | returned | judged => exact Nat.le_refl _

/-- No written word is listed twice. -/
theorem nodup_order (notes : List RegionEvent) : (of notes).pending.order.Nodup := by
  induction notes using List.reverseRecOn with
  | nil => exact List.nodup_nil
  | append_singleton notes x ih =>
    rw [of_concat]
    cases x with
    | read a mask result =>
      rw [add]
      split <;> exact ih
    | write a v mask result =>
      show (if a ∈ (of notes).pending.order then _ else _ : List Addr).Nodup
      split
      · exact ih
      · next hfresh => exact List.nodup_append.2 ⟨ih, List.nodup_singleton a, fun b hb c hc hbc =>
          hfresh (by rw [List.mem_singleton.1 hc] at hbc; exact hbc ▸ hb)⟩
    | refused | entered | aborted | returned | judged => exact ih

theorem card_wordsWritten (notes : List RegionEvent) :
    (of notes).wordsWritten.card = (of notes).pending.order.length :=
  List.toFinset_card_of_nodup (nodup_order notes)

/-- There are no more words than entries. -/
theorem card_le_size (notes : List RegionEvent) :
    (of notes).wordsRead.card + (of notes).wordsWritten.card ≤ (of notes).size := by
  rw [card_wordsWritten, size]
  exact Nat.add_le_add_right (List.toFinset_card_le _) _

/-- There are as many if nothing is taken from memory twice. -/
theorem card_eq_size (h : (of notes).fetched.Nodup) :
    (of notes).wordsRead.card + (of notes).wordsWritten.card = (of notes).size := by
  rw [card_wordsWritten, size, wordsRead, List.toFinset_card_of_nodup h]

end Footprint

/-! ## Events that fail -/

theorem RegionEvent.failure?_of_doom? {x : RegionEvent} (h : x.doom? = none) :
    x.failure? = none := by
  cases x <;> first | exact h | rfl

/-- If something has doomed a region, something did so first. -/
theorem exists_first_doom {notes : List RegionEvent} (h : ¬ ∀ x ∈ notes, x.doom? = none) :
    ∃ before x after abort, notes = before ++ x :: after ∧ (∀ y ∈ before, y.doom? = none) ∧
      x.doom? = some abort := by
  obtain ⟨x, hx⟩ : ∃ x, notes.find? (·.doom?.isSome) = some x := by
    refine Option.isSome_iff_exists.1 (List.find?_isSome.2 ?_)
    by_contra hnone
    exact h fun x hx => Option.not_isSome_iff_eq_none.1 fun hdoom => hnone ⟨x, hx, hdoom⟩
  obtain ⟨hdoom, before, after, hnotes, hbefore⟩ := List.find?_eq_some_iff_append.1 hx
  obtain ⟨abort, habort⟩ := Option.isSome_iff_exists.1 hdoom
  exact ⟨before, x, after, abort, hnotes, fun y hy => by simpa using hbefore y hy, habort⟩

/-- Before an execution begins nothing happens in it. -/
theorem Course.eq_nil_of_starting {notes : List RegionEvent} {x : Execution} (C : Course notes x)
    (h : x = .starting) : notes = [] := by
  subst h
  cases C
  rfl

/-- What explains an abort of a region that nothing has doomed. -/
theorem Course.abort_of_sound {notes : List RegionEvent} {x : Execution} (C : Course notes x)
    (sound : ∀ y ∈ notes, y.doom? = none) {abort : HardwareAbort} (h : x = .done (.error abort)) :
    .refused abort ∈ notes ∨ (∃ err, .returned (.error err) ∈ notes ∧ abort = err.toAbort) ∨
      (.judged false ∈ notes ∧ abort = .conflict) := by
  have absurd {body tail : List RegionEvent} {abort : HardwareAbort} {P : Prop}
      (run : BodyRun body (some abort)) (sound : ∀ y ∈ body ++ tail, y.doom? = none) : P := by
    obtain ⟨y, hy, hdoom⟩ := run.exists_doom rfl
    rw [sound y (List.mem_append_left _ hy)] at hdoom
    cases hdoom
  cases C with
  | refused abort' =>
    obtain rfl : abort' = abort := by simpa using h
    exact Or.inl List.mem_cons_self
  | @failed _ doom run err =>
    cases doom with
    | some abort' => exact absurd run sound
    | none =>
      refine Or.inr (Or.inl ⟨err, by simp, ?_⟩)
      simpa using h.symm
  | doomed run value => exact absurd run sound
  | conflict run value => exact Or.inr (Or.inr ⟨by simp, by simpa using h.symm⟩)
  | _ => cases h

/-! ## Executions -/

/-- How an execution is held to a capacity. -/
structure Measured (c : Nat) (disturbed : Prop) (notes : List RegionEvent) (x : Execution) :
    Prop where
  /-- As long as no access has failed the logs of the region are the footprint. -/
  logs : ∀ r, x.region? = some r → (∀ y ∈ notes, y.failure? = none) →
    r.writes.StandsFor (Footprint.of notes).pending ∧
      r.reads.size = (Footprint.of notes).fetched.length
  /-- They are within the capacity. -/
  fits : (∀ y ∈ notes, y.failure? = none) → (Footprint.of notes).size ≤ c
  /-- The first access that fails. -/
  first : ∀ before y after abort, notes = before ++ y :: after →
    (∀ z ∈ before, z.doom? = none) → y.failure? = some abort →
    abort = if c < (Footprint.of (before ++ [y])).size then .capacity else .conflict
  /-- Conflicts have a reason. -/
  reason : ∀ y ∈ notes, y.failure? = some .conflict → disturbed

namespace Measured

variable {c : Nat} {disturbed : Prop} {notes : List RegionEvent} {x x' : Execution}
  {y : RegionEvent}

theorem starting : Measured c disturbed [] .starting where
  logs _ h := by cases h
  fits _ := Nat.zero_le c
  first before _ _ _ h := by cases before <;> cases h
  reason _ h := absurd h List.not_mem_nil

theorem mono (M : Measured c disturbed notes x) {disturbed' : Prop}
    (h : notes ≠ [] → disturbed → disturbed') : Measured c disturbed' notes x where
  logs := M.logs
  fits := M.fits
  first := M.first
  reason y hy hfails := h (List.ne_nil_of_mem hy) (M.reason y hy hfails)

/-- One more event. -/
theorem concat (M : Measured c disturbed notes x)
    (logs : ∀ r, x'.region? = some r → (∀ z ∈ notes, z.failure? = none) → y.failure? = none →
      r.writes.StandsFor ((Footprint.of notes).add y).pending ∧
        r.reads.size = ((Footprint.of notes).add y).fetched.length)
    (fits : (∀ z ∈ notes, z.failure? = none) → y.failure? = none →
      ((Footprint.of notes).add y).size ≤ c)
    (fails : (∀ z ∈ notes, z.doom? = none) → ∀ abort, y.failure? = some abort →
      abort = if c < ((Footprint.of notes).add y).size then .capacity else .conflict)
    (reason : y.failure? = some .conflict → disturbed) :
    Measured c disturbed (notes ++ [y]) x' where
  logs r hr hall := by
    rw [List.forall_mem_append, List.forall_mem_singleton] at hall
    rw [Footprint.of_concat]
    exact logs r hr hall.1 hall.2
  fits hall := by
    rw [List.forall_mem_append, List.forall_mem_singleton] at hall
    rw [Footprint.of_concat]
    exact fits hall.1 hall.2
  first before z after abort h hbefore hz := by
    rcases concat_eq_append_cons h with ⟨rfl, rfl⟩ | ⟨after', -, hnotes⟩
    · obtain rfl := List.append_inj_left' h rfl
      rw [Footprint.of_concat]
      exact fails hbefore abort hz
    · exact M.first before z after' abort hnotes hbefore hz
  reason z hz hconflict := by
    rcases List.mem_append.1 hz with hz | hz
    · exact M.reason z hz hconflict
    · exact reason (List.mem_singleton.1 hz ▸ hconflict)

/-- One more event that is no access. -/
theorem concat_of_not_isAccess (M : Measured c disturbed notes x) (hy : y.isAccess = false)
    (same : ∀ r', x'.region? = some r' → ∃ r, x.region? = some r ∧ r'.reads = r.reads ∧
      r'.writes = r.writes) : Measured c disturbed (notes ++ [y]) x' := by
  have hnone : y.failure? = none := by
    cases y <;> first | rfl | cases hy
  have absurd {abort : HardwareAbort} {P : Prop} (h : y.failure? = some abort) : P := by
    rw [hnone] at h
    cases h
  have hadd : (Footprint.of notes).add y = Footprint.of notes := Footprint.add_of_not_isAccess hy
  refine M.concat (fun r' hr' hall _ => ?_) (fun hall _ => ?_) (fun _ _ h => absurd h)
    fun h => absurd h
  · obtain ⟨r, hr, hreads, hwrites⟩ := same r' hr'
    rw [hadd, hreads, hwrites]
    exact M.logs r hr hall
  · rw [hadd]
    exact M.fits hall

/-- A stage that does nothing leaves the logs alone. -/
theorem stay (M : Measured c disturbed notes x)
    (same : ∀ r', x'.region? = some r' → x.region? = some r') :
    Measured c disturbed notes x' where
  logs r hr := M.logs r (same r hr)
  fits := M.fits
  first := M.first
  reason := M.reason

section

variable {e : Emulator} {m : Memory} {r r' : Region} {a : Addr} {v : Word} {mask : Mask}

/-- An access of a doomed region is not the first one that fails, nor is its conflict. -/
theorem concat_of_doomed (M : Measured c disturbed notes x) (B : BodyRun notes r.doomed)
    {abort : HardwareAbort} (hdoomed : r.doomed = some abort) (hy : y.failure? = some abort) :
    Measured c disturbed (notes ++ [y]) x' := by
  obtain ⟨z, hz, hdoom⟩ := B.exists_doom hdoomed
  refine M.concat (fun _ _ _ hnone => ?_) (fun _ hnone => ?_) (fun hall => ?_) fun hconflict => ?_
  · rw [hy] at hnone
    cases hnone
  · rw [hy] at hnone
    cases hnone
  · -- Something before it has doomed the region.
    rw [hall z hz] at hdoom
    cases hdoom
  · obtain rfl : abort = .conflict := Option.some.inj (hy.symm.trans hconflict)
    refine M.reason z hz ?_
    cases z <;> first | exact hdoom | cases hdoom

/-- As long as a region is not doomed, its logs are the footprint. -/
theorem sound (M : Measured c disturbed notes (.running r)) (B : BodyRun notes r.doomed)
    (hsound : r.doomed = none) : r.writes.StandsFor (Footprint.of notes).pending ∧
      r.reads.size + r.writes.size = (Footprint.of notes).size := by
  obtain ⟨S, hreads⟩ := M.logs r rfl fun z hz =>
    RegionEvent.failure?_of_doom? (B.sound hsound hz)
  refine ⟨S, ?_⟩
  rw [hreads, S.size]
  rfl

/-- A read goes on with what was measured. -/
theorem read {result : Except HardwareAbort Word} (M : Measured c disturbed notes (.running r))
    (B : BodyRun notes r.doomed) (hc : e.capacity = c) (T : r.ReadTurn e m a mask result r')
    (reason : e.version ≠ r.start → disturbed) :
    Measured c disturbed (notes ++ [.read a mask result]) (.running r') := by
  have uncovered (hsound : r.doomed = none) (h : (r.writes.lookup a mask).2 ≠ mask) :
      (Footprint.of notes).pending.bits a &&& mask ≠ mask := by
    rwa [← (M.sound B hsound).1.lookup]
  cases T with
  | doomed hdoomed => exact M.concat_of_doomed B hdoomed rfl
  | @buffered bits hsound hlookup =>
    have hadd : (Footprint.of notes).add (.read a mask (.ok (bits &&& mask))) =
        Footprint.of notes := by
      refine Footprint.add_read_of_covered ?_ _
      rw [← (M.sound B hsound).1.lookup, hlookup]
    refine M.concat (fun r₁ hr₁ hall _ => ?_) (fun hall _ => ?_) (fun _ _ h => by cases h)
      fun h => by cases h
    · rw [hadd]
      exact M.logs r₁ hr₁ hall
    · rw [hadd]
      exact M.fits hall
  | full hsound huncovered hfull =>
    have hsize := (M.sound B hsound).2
    refine M.concat (fun _ _ _ h => by cases h) (fun _ h => by cases h) (fun _ abort h => ?_)
      fun h => by cases h
    obtain rfl := Option.some.inj h
    -- What is logged fills the capacity, and this read would be one more.
    rw [Footprint.size_add_read (uncovered hsound huncovered), if_pos (by omega)]
  | stale hsound huncovered hroom hmoved hstale =>
    have hsize := (M.sound B hsound).2
    refine M.concat (fun _ _ _ h => by cases h) (fun _ h => by cases h) (fun _ abort h => ?_)
      fun _ => reason hmoved
    obtain rfl := Option.some.inj h
    rw [Footprint.size_add_read (uncovered hsound huncovered), if_neg (by omega)]
  | fetched hsound huncovered hroom value =>
    have hsize := (M.sound B hsound).2
    refine M.concat (fun r₁ hr₁ hall _ => ?_) (fun _ _ => ?_) (fun _ _ h => by cases h)
      fun h => by cases h
    · obtain rfl := Option.some.inj hr₁
      obtain ⟨S, hreads⟩ := M.logs r rfl hall
      rw [Footprint.add_read_of_uncovered (uncovered hsound huncovered), List.length_append,
        ← hreads]
      exact ⟨S, Array.size_push ..⟩
    · rw [Footprint.size_add_read (uncovered hsound huncovered)]
      omega

/-- So does a write. -/
theorem write {result : Except HardwareAbort Unit} (M : Measured c disturbed notes (.running r))
    (B : BodyRun notes r.doomed) (hc : e.capacity = c) (T : r.WriteTurn e a v mask result r') :
    Measured c disturbed (notes ++ [.write a v mask result]) (.running r') := by
  cases T with
  | doomed hdoomed => exact M.concat_of_doomed B hdoomed rfl
  | full hsound hfresh hfull =>
    obtain ⟨S, hsize⟩ := M.sound B hsound
    refine M.concat (fun _ _ _ h => by cases h) (fun _ h => by cases h) (fun _ abort h => ?_)
      fun h => by cases h
    obtain rfl := Option.some.inj h
    -- Only a word that was not written before finds no room.
    have hnew : a ∉ (Footprint.of notes).pending.order :=
      S.isNone_find?.1 (Option.isNone_iff_eq_none.2 hfresh)
    rw [Footprint.size_add_write, if_neg hnew, if_pos (by omega)]
  | written hsound hroom =>
    obtain ⟨S, hsize⟩ := M.sound B hsound
    refine M.concat (fun r₁ hr₁ hall _ => ?_) (fun hall _ => ?_) (fun _ _ h => by cases h)
      fun h => by cases h
    · obtain rfl := Option.some.inj hr₁
      exact ⟨S.insert a v mask, (M.logs r rfl hall).2⟩
    · rw [Footprint.size_add_write]
      split
      · exact M.fits hall
      · next hnew =>
        have := hroom (Option.isNone_iff_eq_none.1 (S.isNone_find?.2 hnew))
        omega

end

/-- Every turn goes on with what was measured. -/
theorem turn {e e' : Emulator} {m m' : Memory} {event : Option RegionEvent}
    (M : Measured c disturbed notes x) (C : Course notes x) (hc : e.capacity = c)
    (T : RegionTurn e m x event x' e' m')
    (reason : ∀ r, x = .running r → e.version ≠ r.start → disturbed) :
    Measured c disturbed (notes ++ event.toList) x' := by
  cases T with
  | refused | failed | commit | conflict =>
    exact M.concat_of_not_isAccess rfl fun _ hr => by cases hr
  | entered enters =>
    cases C
    obtain ⟨hreads, hwrites, -⟩ := Emulator.enter_ok enters
    refine M.concat (fun r hr _ _ => ?_) (fun _ _ => Nat.zero_le c) (fun _ _ h => by cases h)
      fun h => by cases h
    obtain rfl := Option.some.inj hr
    rw [hreads, hwrites]
    exact ⟨.empty, rfl⟩
  | read T => exact M.read (C.run_of_running rfl) hc T (reason _ rfl)
  | write T => exact M.write (C.run_of_running rfl) hc T
  | aborted r code | returned r value =>
    refine M.concat_of_not_isAccess rfl fun r' hr' => ⟨r, rfl, ?_⟩
    obtain rfl := Option.some.inj hr'
    exact ⟨rfl, rfl⟩
  | doomed =>
    rw [Option.toList_none, List.append_nil]
    exact M.stay fun _ hr => by cases hr
  | hook | ready | resumed =>
    rw [Option.toList_none, List.append_nil]
    exact M.stay fun _ hr => hr

/-- Without conflicts and aborts by the body, nothing fails just if the footprint fits. -/
theorem fits_or_exceeds (M : Measured c disturbed notes x)
    (quiet : ∀ y ∈ notes, y.failure? ≠ some .conflict) (stays : ∀ code, .aborted code ∉ notes) :
    ((∀ y ∈ notes, y.failure? = none) ∧ (Footprint.of notes).size ≤ c) ∨
      ((∃ y ∈ notes, y.failure? = some .capacity) ∧ c < (Footprint.of notes).size) := by
  by_cases hall : ∀ y ∈ notes, y.doom? = none
  · have hnone : ∀ y ∈ notes, y.failure? = none :=
      fun y hy => RegionEvent.failure?_of_doom? (hall y hy)
    exact Or.inl ⟨hnone, M.fits hnone⟩
  · -- The first event that has doomed the region decides.
    obtain ⟨before, y, after, abort, hnotes, hbefore, hdoom⟩ := exists_first_doom hall
    have hy : y ∈ notes := hnotes ▸ List.mem_append_right _ List.mem_cons_self
    have hfails : y.failure? = some abort := by
      cases y with
      | aborted code => exact absurd hy (stays code)
      | _ => exact hdoom
    have hfirst := M.first before y after abort hnotes hbefore hfails
    split at hfirst
    · next hexceeds =>
      subst hfirst
      refine Or.inr ⟨⟨y, hy, hfails⟩, hexceeds.trans_le ?_⟩
      rw [hnotes, List.append_cons before y after]
      exact Footprint.size_le_append _ after
    · subst hfirst
      exact absurd hfails (quiet y hy)

end Measured

/-! ## Diaries -/

/-- No execution changes the capacity. -/
theorem RegionTurn.capacity {e e' : Emulator} {m m' : Memory} {x x' : Execution}
    {event : Option RegionEvent} (T : RegionTurn e m x event x' e' m') :
    e'.capacity = e.capacity := by
  cases T with
  | refused enters | entered enters =>
    obtain ⟨faults, rfl⟩ := Emulator.eq_of_enter enters
    rfl
  | commit value current commits =>
    obtain ⟨-, rfl⟩ := Emulator.eq_of_commit commits
    rfl
  | read | write | aborted | returned | failed | doomed | hook | ready | resumed | conflict => rfl

namespace RegionDiary

variable {ι : Type} [DecidableEq ι] {capacity : Nat} {m₀ : Memory} {d d' : RegionDiary ι}
  {c : RegionCall ι} {i : ι}

/-- Every emulator has room for one access, and its capacity stays. -/
theorem capacity_of_reachable (h : Reachable capacity m₀ d) :
    ∃ e, d.system.backend = .emulated e ∧ e.capacity = max capacity 1 := by
  induction h with
  | refl => exact ⟨_, rfl, rfl⟩
  | tail hreach hstep ih =>
    obtain ⟨e, emulated, hcapacity⟩ := ih
    obtain ⟨c, hcall⟩ := hstep
    cases howner : c.owner? with
    | some k =>
      obtain ⟨e', emulated', T, -⟩ := turn_of_call emulated hcall howner
      exact ⟨e', emulated', T.capacity.trans hcapacity⟩
    | none =>
      obtain ⟨s', hsystem, rfl⟩ := Option.map_eq_some_iff.1 hcall
      cases RegionSystem.change_of_call hsystem with
      | updated owner => cases howner.symm.trans owner
      | advanced => cases howner
      | exchange a current new swaps =>
        rw [emulated] at swaps
        obtain rfl := (Prod.mk.inj (Prod.mk.inj swaps).2).1
        exact ⟨e.publish, rfl, hcapacity⟩
      | setFaults f => exact ⟨{ e with faults := f e.faults }, by rw [emulated]; rfl, hcapacity⟩

/-- A region whose start is not the version any more began before the last publication. -/
theorem since_lt_count (h : Reachable capacity m₀ d) {e : Emulator}
    (emulated : d.system.backend = .emulated e) {r : Region}
    (hrunning : d.system.execution i = .running r) (moved : e.version ≠ r.start) :
    d.system.since i < d.system.history.count := by
  have I := (RegionSystem.standing_of_reachable (reachable_system h)).1
  obtain ⟨e₁, emulated₁, hversion⟩ := I.emulator
  obtain rfl : e = e₁ := Backend.emulated.inj (emulated.symm.trans emulated₁)
  have S := I.running hrunning
  refine lt_of_le_of_ne S.since_le fun hsame => moved ?_
  obtain ⟨k, hsince, hk, hstart, -⟩ := S.snapshot (by
    rw [hsame]
    exact Nat.lt_add_of_pos_right (by decide))
  rw [hversion, hstart, Nat.le_antisymm hk (hsame ▸ hsince)]

theorem measured_of_reachable (h : Reachable capacity m₀ d) (i : ι) :
    Measured (max capacity 1) (d.system.since i < d.system.history.count) (d.notes i)
      (d.system.execution i) := by
  induction h with
  | refl => exact .starting
  | @tail d d' hreach hstep M =>
    obtain ⟨c, hcall⟩ := hstep
    have C := (kept_of_reachable hreach i).course
    -- What was a reason for a conflict stays one.
    have reason (begun : d.system.execution i ≠ .starting)
        (h : d.system.since i < d.system.history.count) :
        d'.system.since i < d'.system.history.count := by
      obtain ⟨s', hsystem, rfl⟩ := Option.map_eq_some_iff.1 hcall
      show s'.since i < s'.history.count
      rw [RegionSystem.since_of_call hsystem begun]
      exact h.trans_le (RegionSystem.count_le_of_call hsystem)
    have M' := M.mono fun hnotes => reason fun hstarting => hnotes (C.eq_nil_of_starting hstarting)
    by_cases owner : c.owner? = some i
    · obtain ⟨e, emulated, hcapacity⟩ := capacity_of_reachable hreach
      obtain ⟨e', -, T, hnotes, -⟩ := turn_of_call emulated hcall owner
      rw [hnotes]
      exact M'.turn C hcapacity T fun r hrunning moved =>
        reason (fun hstarting => by rw [hrunning] at hstarting; cases hstarting)
          (since_lt_count hreach emulated hrunning moved)
    · obtain ⟨hexecution, hnotes, -⟩ := others_of_call hcall owner
      rw [hexecution, hnotes]
      exact M'

/-- In every reachable state, whatever the bodies and the others have done. -/
theorem metered_of_reachable (h : Reachable capacity m₀ d) : d.Metered (max capacity 1) := by
  have M := measured_of_reachable h
  refine ⟨fun i => (M i).fits, fun i => (M i).first, fun i => (M i).reason, ?_, ?_,
    fun i sound _ => (kept_of_reachable h i).course.abort_of_sound sound, ?_, ?_⟩
  · intro i quiet stays
    rcases (M i).fits_or_exceeds quiet stays with ⟨hnone, hfits⟩ | ⟨hfails, hexceeds⟩
    · refine iff_of_false ?_ (Nat.not_lt.2 hfits)
      rintro ⟨x, hx, hfails⟩
      rw [hnone x hx] at hfails
      cases hfails
    · exact iff_of_true hfails hexceeds
  · intro i x hx hfails stays
    obtain ⟨before, after, hnotes⟩ := List.append_of_mem hx
    have hdoom : x.doom? = some .capacity := by
      cases x with
      | aborted code => cases hfails
      | _ => exact hfails
    exact ((kept_of_reachable h i).course.doomed_of hnotes hdoom).2 fun code hcode =>
      stays code (hnotes ▸ List.mem_append_right _ (List.mem_cons_of_mem _ hcode))
  · intro i quiet stays hmany
    rcases (M i).fits_or_exceeds quiet stays with ⟨-, hfits⟩ | ⟨hfails, -⟩
    · exact absurd (hmany.trans_le (Footprint.card_le_size _)) (Nat.not_lt.2 hfits)
    · exact hfails
  · intro i quiet stays hnodup hfew
    rcases (M i).fits_or_exceeds quiet stays with ⟨hnone, -⟩ | ⟨-, hexceeds⟩
    · exact hnone
    · rw [Footprint.card_eq_size hnodup] at hfew
      exact absurd hexceeds (Nat.not_lt.2 hfew)

/-! ## A run -/

/-- On a capacity of three, the first body reads two words and writes a third one, again and again.
The second one reads the same word four times. The third one writes three words, and goes on after
it has failed to read a fourth one. -/
def threeBodies : List (RegionCall Nat) :=
  [.advance 0, .read 0 0 fullMask, .write 0 8 1 fullMask, .read 0 8 fullMask, .write 0 8 2 fullMask,
    .read 0 16 fullMask, .write 0 8 3 fullMask, .endBody 0 (.ok 7), .advance 0, .advance 0,
    .advance 1, .read 1 0 fullMask, .read 1 0 fullMask, .read 1 0 fullMask, .read 1 0 fullMask,
    .endBody 1 (.ok 7), .advance 1,
    .advance 2, .write 2 0 1 fullMask, .write 2 8 2 fullMask, .write 2 16 3 fullMask,
    .read 2 24 fullMask, .write 2 0 4 fullMask, .endBody 2 (.ok 7), .advance 2]

/-- The second body touches one word only and exceeds the capacity like the third one. -/
theorem metered_of_three_bodies : ∃ d : RegionDiary Nat, Reachable 3 .zero d ∧
    (List.range 3).map d.result? =
      [some (.ok 7), some (.error .capacity), some (.error .capacity)] ∧
    (List.range 3).map (fun i => (Footprint.of (d.notes i)).size) = [3, 4, 4] ∧
    (List.range 3).map (fun i => (Footprint.of (d.notes i)).wordsRead.card +
      (Footprint.of (d.notes i)).wordsWritten.card) = [3, 1, 4] ∧ d.Metered (max 3 1) := by
  have facts : ((init 3 .zero).run threeBodies).map (fun d =>
      ((List.range 3).map d.result?, (List.range 3).map fun i => (Footprint.of (d.notes i)).size,
        (List.range 3).map fun i => (Footprint.of (d.notes i)).wordsRead.card +
          (Footprint.of (d.notes i)).wordsWritten.card)) =
      some ([some (.ok 7), some (.error .capacity), some (.error .capacity)], [3, 4, 4],
        [3, 1, 4]) := by
    decide +kernel
  obtain ⟨d, hrun, hd⟩ := Option.map_eq_some_iff.1 facts
  obtain ⟨hresults, hd⟩ := Prod.mk.inj hd
  obtain ⟨hsizes, hwords⟩ := Prod.mk.inj hd
  have hreach : Reachable 3 .zero d := reachable_of_run .refl hrun
  exact ⟨d, hreach, hresults, hsizes, hwords, metered_of_reachable hreach⟩

end RegionDiary

end HybridTM
