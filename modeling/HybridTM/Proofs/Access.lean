import HybridTM.Abort
import HybridTM.Memory

/-!
# Accesses of a body

What a body did to shared memory, one access after the other, with the results it was given.
Replayed alone from a memory, each write takes effect in place. A run of accesses agrees with a
memory when every read that succeeded gives the same result in that replay.

Both depend only on the words that are accessed (`agrees_congr`, `sameOn_after`), and both grow
with the last access (`after_concat`, `agrees_read_concat`, `agrees_write_concat`).
-/

set_option autoImplicit false

namespace HybridTM

/-- Two memories hold the same in all words of a set. -/
def Memory.SameOn (P : Addr → Prop) (m m' : Memory) : Prop :=
  ∀ a, P a → m.read a = m'.read a

/-- One access of a body with the result it was given. -/
inductive Access where
  /-- A masked read. -/
  | read (a : Addr) (mask : Mask) (result : Except TxError Word)
  /-- A masked write. -/
  | write (a : Addr) (v : Word) (mask : Mask)

namespace Access

/-- The word that is accessed. -/
def addr : Access → Addr
  | .read a _ _ => a
  | .write a _ _ => a

/-- The memory after an access in place. -/
def apply : Access → Memory → Memory
  | .read _ _ _, m => m
  | .write a v mask, m => m.store a v mask

/-- What a read tells its caller when it fails. -/
def failure? : Access → Option (Option TxError)
  | .read _ _ (.ok _) => some none
  | .read _ _ (.error e) => some (some e)
  | .write _ _ _ => none

end Access

/-- The memory after a run of accesses in place. -/
def after (t : List Access) (m : Memory) : Memory :=
  t.foldl (fun m x => x.apply m) m

/-- Replayed alone from a memory, a run of accesses gives every read that succeeded the same
result: the memory, overlaid with the earlier writes of the run, restricted to the mask. -/
def Agrees : List Access → Memory → Prop
  | [], _ => True
  | .read a mask (.ok v) :: t, m => v = m.read a &&& mask ∧ Agrees t m
  | .read _ _ (.error _) :: t, m => Agrees t m
  | .write a v mask :: t, m => Agrees t (m.store a v mask)

/-- All accesses of a run are to words of a set. -/
def Within (P : Addr → Prop) (t : List Access) : Prop :=
  ∀ x ∈ t, P x.addr

/-- A run of accesses without a write. -/
def ReadsOnly (t : List Access) : Prop :=
  ∀ a v mask, Access.write a v mask ∉ t

/-! ## Memories with the same words -/

namespace Memory

theorem SameOn.refl (P : Addr → Prop) (m : Memory) : SameOn P m m :=
  fun _ _ => rfl

theorem SameOn.symm {P : Addr → Prop} {m m' : Memory} (h : SameOn P m m') : SameOn P m' m :=
  fun a ha => (h a ha).symm

theorem SameOn.trans {P : Addr → Prop} {m m' m'' : Memory} (h : SameOn P m m')
    (h' : SameOn P m' m'') : SameOn P m m'' :=
  fun a ha => (h a ha).trans (h' a ha)

theorem SameOn.store {P : Addr → Prop} {m m' : Memory} (h : SameOn P m m') (a : Addr) (v : Word)
    (mask : Mask) : SameOn P (m.store a v mask) (m'.store a v mask) := by
  intro b hb
  rw [read_store, read_store, h b hb]
  split
  · next heq => rw [h a (heq ▸ hb)]
  · rfl

/-- A write outside the set is not seen. -/
theorem SameOn.write {P : Addr → Prop} (m : Memory) {a : Addr} (ha : ¬ P a) (v : Word) :
    SameOn P (m.write a v) m := by
  intro b hb
  rw [read_write, if_neg]
  rintro rfl
  exact ha hb

end Memory

/-! ## Longer runs -/

theorem within_concat {P : Addr → Prop} {t : List Access} {x : Access} :
    Within P (t ++ [x]) ↔ Within P t ∧ P x.addr := by
  simp only [Within, List.mem_append, List.mem_singleton]
  constructor
  · intro h
    exact ⟨fun y hy => h y (Or.inl hy), h x (Or.inr rfl)⟩
  · rintro ⟨h, hx⟩ y (hy | rfl)
    · exact h y hy
    · exact hx

theorem readsOnly_concat_read {t : List Access} (h : ReadsOnly t) (a : Addr) (mask : Mask)
    (result : Except TxError Word) : ReadsOnly (t ++ [.read a mask result]) := by
  intro b v mask' hmem
  rw [List.mem_append, List.mem_singleton] at hmem
  rcases hmem with hmem | hmem
  · exact h b v mask' hmem
  · cases hmem

@[simp]
theorem after_nil (m : Memory) : after [] m = m := rfl

theorem after_append (t t' : List Access) (m : Memory) :
    after (t ++ t') m = after t' (after t m) :=
  List.foldl_append

theorem after_cons (x : Access) (t : List Access) (m : Memory) :
    after (x :: t) m = after t (x.apply m) := rfl

@[simp]
theorem after_concat (t : List Access) (x : Access) (m : Memory) :
    after (t ++ [x]) m = x.apply (after t m) := by
  simp [after]

/-- A run without a write leaves memory as it is. -/
theorem after_of_readsOnly {t : List Access} (h : ReadsOnly t) (m : Memory) : after t m = m := by
  induction t with
  | nil => rfl
  | cons x t ih =>
    have ht : ReadsOnly t := fun a v mask hmem => h a v mask (List.mem_cons_of_mem x hmem)
    cases x with
    | read a mask result => exact ih ht
    | write a v mask => exact absurd List.mem_cons_self (h a v mask)

theorem agrees_read_concat (t : List Access) (a : Addr) (mask : Mask) (v : Word) (m : Memory) :
    Agrees (t ++ [.read a mask (.ok v)]) m ↔
      Agrees t m ∧ v = (after t m).read a &&& mask := by
  -- A write in front changes the memory that the rest of the run is replayed from.
  induction t generalizing m with
  | nil => simp [Agrees]
  | cons x t ih =>
    cases x with
    | read b mask' result =>
      cases result with
      | ok w => simp only [List.cons_append, Agrees, ih, after_cons, Access.apply, and_assoc]
      | error e => simp only [List.cons_append, Agrees, ih, after_cons, Access.apply]
    | write b w mask' => simp only [List.cons_append, Agrees, ih, after_cons, Access.apply]

theorem agrees_failure_concat (t : List Access) (a : Addr) (mask : Mask) (e : TxError)
    (m : Memory) : Agrees (t ++ [.read a mask (.error e)]) m ↔ Agrees t m := by
  induction t generalizing m with
  | nil => simp [Agrees]
  | cons x t ih =>
    cases x with
    | read b mask' result => cases result <;> simp only [List.cons_append, Agrees, ih]
    | write b w mask' => simp only [List.cons_append, Agrees, ih]

theorem agrees_write_concat (t : List Access) (a : Addr) (v : Word) (mask : Mask) (m : Memory) :
    Agrees (t ++ [.write a v mask]) m ↔ Agrees t m := by
  induction t generalizing m with
  | nil => simp [Agrees]
  | cons x t ih =>
    cases x with
    | read b mask' result => cases result <;> simp only [List.cons_append, Agrees, ih]
    | write b w mask' => simp only [List.cons_append, Agrees, ih]

/-! ## Only the accessed words matter -/

/-- Each word of the set depends on what it held before and on nothing else. -/
theorem sameOn_after {P : Addr → Prop} (t : List Access) {m m' : Memory}
    (h : Memory.SameOn P m m') : Memory.SameOn P (after t m) (after t m') := by
  induction t generalizing m m' with
  | nil => exact h
  | cons x t ih =>
    -- The two memories change together.
    cases x with
    | read a mask result => exact ih h
    | write a v mask => exact ih (h.store a v mask)

theorem agrees_congr {P : Addr → Prop} {t : List Access} (ht : Within P t) {m m' : Memory}
    (h : Memory.SameOn P m m') : Agrees t m ↔ Agrees t m' := by
  induction t generalizing m m' with
  | nil => exact Iff.rfl
  | cons x t ih =>
    have hx : P x.addr := ht x List.mem_cons_self
    have ht' : Within P t := fun y hy => ht y (List.mem_cons_of_mem x hy)
    cases x with
    | read a mask result =>
      cases result with
      | ok v => simp only [Agrees, h a hx, ih ht' h]
      | error e => simp only [Agrees, ih ht' h]
    | write a v mask => exact ih ht' (h.store a v mask)

end HybridTM
