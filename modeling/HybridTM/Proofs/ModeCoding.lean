import HybridTM.Proofs.ModeInvariant
import HybridTM.Word.Bits

/-!
# The coding of the mode word

Mode and counts fill all 64 bits of their word: two, then 31, then 31 (`WordField.bit_encode`).
Contents are read back from their word just if both counts fit (`ModeSnapshot.decode_encode_iff`),
and a word is written back from its contents just if its lowest two bits are those of a mode
(`ModeSnapshot.encode_decode_iff`). Two contents agree in a field just if their words agree in its
bits, so an increment, which is refused when a count is full, never reaches into another field
(`WordField.Increment`).

A compare-and-swap of the word is therefore a compare-and-swap of the contents. One of them succeeds
just if the contents are the expected ones (`Runtime.Holds.transition`), and any number of them does
to the word what it does to a cell that holds contents (`Runtime.Holds.inTurn`). In every reachable
state of any number of workers the mode word is of this kind. So the word and its contents stand for
each other (`ModeSnapshot.faithfulModeWord`).
-/

set_option autoImplicit false

namespace HybridTM

namespace ModeSnapshot

variable {s s' : ModeSnapshot} {w : Word}

theorem inRange_iff : s.InRange ↔ s.deferred ≤ maxCount ∧ s.undeferred ≤ maxCount := by
  simp only [maxCount, countLimit]
  exact ⟨fun h => ⟨Nat.le_of_lt_succ h.deferred, Nat.le_of_lt_succ h.undeferred⟩,
    fun h => ⟨Nat.lt_succ_of_le h.1, Nat.lt_succ_of_le h.2⟩⟩

/-- Contents are read back just if both counts fit. -/
theorem decode_encode_iff (s : ModeSnapshot) : decode s.encode = s ↔ s.InRange := by
  constructor
  · intro h
    rw [← h]
    exact inRange_decode s.encode
  · exact decode_encode

/-- The lowest two bits are those of a mode. -/
def IsCode (w : Word) : Prop := w.toNat % 4 ≠ 3

instance (w : Word) : Decidable (IsCode w) := inferInstanceAs (Decidable (_ ≠ _))

theorem isCode_encode (h : s.InRange) : IsCode s.encode := by
  have hm := s.mode.bits_lt
  rw [IsCode, toNat_encode h, countLimit]
  omega

theorem bits_ofBits {n : Nat} (h : n < 3) : (Mode.ofBits n).bits = n := by
  match n with
  | 0 | 1 | 2 => rfl

/-- A word is written back from its contents just if its lowest two bits are those of a mode. -/
theorem encode_decode_iff (w : Word) : (decode w).encode = w ↔ IsCode w := by
  have hrange := inRange_decode w
  constructor
  · intro h
    rw [← h]
    exact isCode_encode hrange
  · intro h
    have hlow : w.toNat % 4 < 3 := by
      have := Nat.mod_lt w.toNat (by decide : 4 > 0)
      unfold IsCode at h
      omega
    apply UInt64.toNat_inj.1
    rw [toNat_encode hrange]
    simp only [decode, bits_ofBits hlow, countLimit]
    omega

example : (decode 3).encode = 2 := by decide

/-! ## Transitions -/

/-- The transitions of the mode word. -/
def transitions : List (ModeSnapshot → Option ModeSnapshot) :=
  [enterDeferred?, flipToSoftware?, enterUndeferred?, leaveDeferred?, leaveUndeferred?,
    acquireLock?]

/-- Each is the change of an errand. -/
theorem exists_change?_eq {step : ModeSnapshot → Option ModeSnapshot} (mem : step ∈ transitions) :
    ∃ errand : Errand, errand.change? = step := by
  simp only [transitions, List.mem_cons, List.not_mem_nil, or_false] at mem
  rcases mem with rfl | rfl | rfl | rfl | rfl | rfl
  · exact ⟨.register 0, rfl⟩
  · exact ⟨.flip 0, rfl⟩
  · exact ⟨.join 0, rfl⟩
  · exact ⟨.endEpoch .unwound, rfl⟩
  · exact ⟨.leave .unwound, rfl⟩
  · exact ⟨.lock 0, rfl⟩

theorem inRange_of_mem_transitions {step : ModeSnapshot → Option ModeSnapshot}
    (mem : step ∈ transitions) (h : s.InRange) (hs : step s = some s') : s'.InRange := by
  obtain ⟨errand, rfl⟩ := exists_change?_eq mem
  exact errand.inRange h hs

end ModeSnapshot

/-! ## Fields -/

/-- The fields of the mode word. -/
inductive WordField where
  /-- The mode. -/
  | mode
  /-- The threads with epochs of their own. -/
  | deferred
  /-- The transactions that joined. -/
  | undeferred
  deriving DecidableEq, Repr

namespace WordField

/-- The lowest bit. -/
def first : WordField → Nat
  | mode => 0
  | deferred => 2
  | undeferred => 33

/-- The number of bits. -/
def width : WordField → Nat
  | mode => 2
  | deferred => 31
  | undeferred => 31

/-- What contents have in a field. -/
def value : WordField → ModeSnapshot → Nat
  | mode, s => s.mode.bits
  | deferred, s => s.deferred
  | undeferred, s => s.undeferred

/-- The transition that makes a count larger by one; a mode is not counted. -/
def increment? : WordField → ModeSnapshot → Option ModeSnapshot
  | mode => fun _ => none
  | deferred => ModeSnapshot.enterDeferred?
  | undeferred => ModeSnapshot.enterUndeferred?

/-- The contents in which a count may become larger: a thread can begin an epoch unless the lock is
held, and a transaction can join one that is going on. -/
def Admits : WordField → ModeSnapshot → Prop
  | mode, _ => False
  | deferred, s => s.mode ≠ .glock
  | undeferred, s => s.mode = .sw ∧ s.deferred ≠ 0

variable {s s' : ModeSnapshot}

theorem value_lt (f : WordField) (h : s.InRange) : f.value s < 2 ^ f.width := by
  cases f with
  | mode => exact s.mode.bits_lt.trans (by decide)
  | deferred => exact h.deferred
  | undeferred => exact h.undeferred

/-- The word of contents is made of what they have in the fields, each at its place. -/
theorem toNat_encode (h : s.InRange) :
    s.encode.toNat = mode.value s * 2 ^ mode.first + deferred.value s * 2 ^ deferred.first +
      undeferred.value s * 2 ^ undeferred.first := by
  rw [ModeSnapshot.toNat_encode h]
  simp only [value, first, ModeSnapshot.countLimit]
  omega

/-- A field of contents is cut out of their word. -/
theorem value_eq (f : WordField) (h : s.InRange) :
    f.value s = s.encode.toNat / 2 ^ f.first % 2 ^ f.width := by
  have hm := mode.value_lt h
  have hd := deferred.value_lt h
  have hu := undeferred.value_lt h
  rw [toNat_encode h]
  cases f <;> simp only [first, width] at hm hd hu ⊢ <;> omega

/-- The bits of a field are those of what contents have in it. -/
theorem bit_encode (f : WordField) (h : s.InRange) {i : Nat} (hi : i < f.width) :
    s.encode.bit (f.first + i) = (f.value s).testBit i := by
  rw [value_eq f h, Nat.testBit_mod_two_pow, Nat.testBit_div_two_pow, decide_eq_true hi,
    Bool.true_and, Nat.add_comm i]
  rfl

/-- Contents agree in a field just if their words agree in its bits. -/
theorem value_eq_iff (f : WordField) (h : s.InRange) (h' : s'.InRange) :
    f.value s = f.value s' ↔
      ∀ i < f.width, s.encode.bit (f.first + i) = s'.encode.bit (f.first + i) := by
  constructor
  · intro heq i hi
    rw [bit_encode f h hi, bit_encode f h' hi, heq]
  · intro hbits
    refine Nat.eq_of_testBit_eq fun i => ?_
    by_cases hi : i < f.width
    · rw [← bit_encode f h hi, ← bit_encode f h' hi, hbits i hi]
    · have hpow : 2 ^ f.width ≤ 2 ^ i := Nat.pow_le_pow_right Nat.two_pos (Nat.le_of_not_lt hi)
      rw [Nat.testBit_lt_two_pow ((f.value_lt h).trans_le hpow),
        Nat.testBit_lt_two_pow ((f.value_lt h').trans_le hpow)]

/-- What an increment of a field does to the word of contents. -/
structure Increment (f : WordField) (s s' : ModeSnapshot) : Prop where
  /-- The count becomes larger by one and still fits. -/
  value : f.value s' = f.value s + 1 ∧ f.value s' < 2 ^ f.width
  /-- So does the word, at the place of the count, and nothing runs off its end. -/
  word : s'.encode.toNat = s.encode.toNat + 2 ^ f.first
  /-- Every other field is what it was. -/
  others : ∀ g, g ≠ f → g.value s' = g.value s
  /-- Every bit outside the field is what it was. -/
  bits : ∀ g, g ≠ f → ∀ i < g.width, s'.encode.bit (g.first + i) = s.encode.bit (g.first + i)

theorem increment_of_increment? (f : WordField) (h : s.InRange) (hs : f.increment? s = some s') :
    f.Increment s s' := by
  obtain ⟨hrange, hvalue, hothers⟩ : s'.InRange ∧ f.value s' = f.value s + 1 ∧
      ∀ g, g ≠ f → g.value s' = g.value s := by
    cases f with
    | mode => cases hs
    | deferred =>
      refine ⟨ModeSnapshot.inRange_of_mem_transitions (List.Mem.head _) h hs, ?_⟩
      obtain ⟨-, -, rfl⟩ := ModeSnapshot.enterDeferred?_eq_some_iff.1 hs
      refine ⟨rfl, fun g hg => ?_⟩
      cases g <;> first | rfl | exact absurd rfl hg
    | undeferred =>
      refine ⟨ModeSnapshot.inRange_of_mem_transitions (.tail _ (.tail _ (.head _))) h hs, ?_⟩
      obtain ⟨-, -, -, rfl⟩ := ModeSnapshot.enterUndeferred?_eq_some_iff.1 hs
      refine ⟨rfl, fun g hg => ?_⟩
      cases g <;> first | rfl | exact absurd rfl hg
  refine ⟨⟨hvalue, f.value_lt hrange⟩, ?_, hothers,
    fun g hg => (g.value_eq_iff hrange h).1 (hothers g hg)⟩
  rw [toNat_encode hrange, toNat_encode h]
  cases f with
  | mode => cases hs
  | deferred =>
    rw [hvalue, hothers mode (by decide), hothers undeferred (by decide), Nat.succ_mul]
    omega
  | undeferred =>
    rw [hvalue, hothers mode (by decide), hothers deferred (by decide), Nat.succ_mul]
    omega

/-- An increment is made just if the contents admit it and the count is not full. -/
theorem isSome_increment?_iff (f : WordField) (s : ModeSnapshot) :
    (f.increment? s).isSome ↔ f.Admits s ∧ f.value s ≠ ModeSnapshot.maxCount := by
  rw [Option.isSome_iff_exists]
  cases f with
  | mode => simp [increment?, Admits]
  | deferred => simp [increment?, Admits, value, ModeSnapshot.enterDeferred?_eq_some_iff]
  | undeferred =>
    simp [increment?, Admits, value, ModeSnapshot.enterUndeferred?_eq_some_iff, and_assoc]

end WordField

/-! ## Swaps -/

namespace Runtime

variable {r r' : Runtime} {s : ModeSnapshot}

/-- The mode word is that of contents whose counts fit. -/
structure Holds (r : Runtime) (s : ModeSnapshot) : Prop where
  /-- The counts fit. -/
  inRange : s.InRange
  /-- The word is that of the contents. -/
  word : r.memory.read modeAddr = s.encode

theorem Holds.mode (H : r.Holds s) : r.mode = s := by
  rw [Runtime.mode, H.word, ModeSnapshot.decode_encode H.inRange]

/-- A runtime holds its mode just if its mode word is written back from its contents. -/
theorem holds_mode_iff : r.Holds r.mode ↔ ModeSnapshot.IsCode (r.memory.read modeAddr) := by
  rw [← ModeSnapshot.encode_decode_iff]
  exact ⟨fun H => H.word.symm, fun h => ⟨ModeSnapshot.inRange_decode _, h.symm⟩⟩

/-- A transition swaps the mode word; the gauge is not in memory. -/
theorem transition_cases {expected next : ModeSnapshot} {swapped : Bool}
    (h : r.transition expected next = (swapped, r')) :
    swapped = true ∧ r.memory.read modeAddr = expected.encode ∧
        r'.memory = r.memory.write modeAddr next.encode ∨
      swapped = false ∧ r.memory.read modeAddr ≠ expected.encode ∧ r'.memory = r.memory := by
  rcases hswap : r.swapMode expected next with ⟨swapped₁, r₁⟩
  rw [transition, hswap] at h
  obtain ⟨rfl, hr'⟩ := Prod.mk.inj h
  have hmemory : r'.memory = r₁.memory := by
    rw [← hr']
    split <;> rfl
  rcases swapMode_cases hswap with ⟨rfl, hword, hshared, -⟩ | ⟨rfl, hword, hshared, -⟩
  · exact Or.inl ⟨rfl, hword, hmemory.trans (congrArg Shared.memory hshared)⟩
  · exact Or.inr ⟨rfl, hword, hmemory.trans (congrArg Shared.memory hshared)⟩

/-- A swap succeeds just if the word is that of the expected contents. -/
theorem transition_eq_true_iff {expected next : ModeSnapshot} :
    (r.transition expected next).1 = true ↔ r.memory.read modeAddr = expected.encode := by
  rcases h : r.transition expected next with ⟨swapped, r'⟩
  rcases transition_cases h with ⟨rfl, hword, -⟩ | ⟨rfl, hword, -⟩ <;> simp [hword]

end Runtime

/-- A compare-and-swap of contents. -/
structure Exchange where
  /-- The contents that have to be there. -/
  expected : ModeSnapshot
  /-- The contents that replace them. -/
  next : ModeSnapshot

namespace Exchange

/-- The counts of both fit. -/
structure InRange (x : Exchange) : Prop where
  /-- Those that have to be there. -/
  expected : x.expected.InRange
  /-- Those that replace them. -/
  next : x.next.InRange

/-- What a swap does to a cell that holds contents. -/
def onCell (x : Exchange) (s : ModeSnapshot) : Bool × ModeSnapshot :=
  if s = x.expected then (true, x.next) else (false, s)

/-- What a swap does to a runtime. -/
def onRuntime (x : Exchange) (r : Runtime) : Bool × Runtime := r.transition x.expected x.next

/-- One swap after the other, with their answers. -/
def inTurn {σ : Type} (swap : Exchange → σ → Bool × σ) : List Exchange → σ → List Bool × σ
  | [], s => ([], s)
  | x :: xs, s =>
      let (answer, s) := swap x s
      let (answers, s) := inTurn swap xs s
      (answer :: answers, s)

end Exchange

namespace Runtime

variable {r r' : Runtime} {s s' : ModeSnapshot}

/-- The two answer alike, the runtime holds what is in the cell, and the rest of memory is what it
was. -/
structure Mirrors {α : Type} (before : Runtime) (x : α × Runtime) (y : α × ModeSnapshot) :
    Prop where
  /-- The answers are the same. -/
  answer : x.1 = y.1
  /-- The runtime holds what is in the cell. -/
  holds : x.2.Holds y.2
  /-- Other words are not touched. -/
  others : ∀ a ≠ modeAddr, x.2.memory.read a = before.memory.read a

/-- A swap of the mode word is a swap of its contents. -/
theorem Holds.onRuntime (H : r.Holds s) {x : Exchange} (h : x.InRange) :
    r.Mirrors (x.onRuntime r) (x.onCell s) := by
  have hiff : r.memory.read modeAddr = x.expected.encode ↔ s = x.expected := by
    rw [H.word, ModeSnapshot.encode_inj H.inRange h.expected]
  rcases hr : x.onRuntime r with ⟨swapped, r'⟩
  rcases transition_cases hr with ⟨rfl, hword, hmemory⟩ | ⟨rfl, hword, hmemory⟩
  · rw [Exchange.onCell, if_pos (hiff.1 hword)]
    refine ⟨rfl, ⟨h.next, ?_⟩, fun a ha => ?_⟩
    · rw [hmemory, Memory.read_write_self]
    · rw [hmemory, Memory.read_write, if_neg ha]
  · rw [Exchange.onCell, if_neg (fun hs => hword (hiff.2 hs))]
    refine ⟨rfl, ⟨H.inRange, ?_⟩, fun a _ => ?_⟩
    · rw [hmemory, H.word]
    · rw [hmemory]

/-- So are any number of them. -/
theorem Holds.inTurn (H : r.Holds s) {xs : List Exchange} (h : ∀ x ∈ xs, x.InRange) :
    r.Mirrors (Exchange.inTurn Exchange.onRuntime xs r)
      (Exchange.inTurn Exchange.onCell xs s) := by
  -- Each swap leaves the runtime with what is in the cell, so the next one is of the same kind.
  induction xs generalizing r s with
  | nil => exact ⟨rfl, H, fun _ _ => rfl⟩
  | cons x xs ih =>
    have hfirst := H.onRuntime (h x List.mem_cons_self)
    have hrest := ih hfirst.holds fun y hy => h y (List.mem_cons_of_mem x hy)
    refine ⟨?_, hrest.holds, fun a ha => (hrest.others a ha).trans (hfirst.others a ha)⟩
    exact congrArg₂ List.cons hfirst.answer hrest.answer

end Runtime

/-- What the coding of the mode word promises. -/
structure FaithfulModeWord : Prop where
  /-- Contents are read back from their word just if both counts fit. -/
  read_back : ∀ s : ModeSnapshot, ModeSnapshot.decode s.encode = s ↔
    s.deferred ≤ ModeSnapshot.maxCount ∧ s.undeferred ≤ ModeSnapshot.maxCount
  /-- A word is written back from its contents just if its lowest two bits are not 3. -/
  written_back : ∀ w : Word, (ModeSnapshot.decode w).encode = w ↔ w.toNat % 4 ≠ 3
  /-- Every transition keeps the counts in range. -/
  transition : ∀ step ∈ ModeSnapshot.transitions, ∀ s s' : ModeSnapshot,
    s.InRange → step s = some s' → s'.InRange
  /-- An increment leaves the other fields alone, in the contents and in their word. -/
  increment : ∀ (f : WordField) (s s' : ModeSnapshot),
    s.InRange → f.increment? s = some s' → f.Increment s s'
  /-- It is refused when the count is full, and not before. -/
  increment_iff : ∀ (f : WordField) (s : ModeSnapshot),
    (f.increment? s).isSome ↔ f.Admits s ∧ f.value s ≠ ModeSnapshot.maxCount
  /-- A swap of a word with proper mode bits succeeds just if its contents are those expected. -/
  swap_iff : ∀ (r : Runtime) (expected next : ModeSnapshot),
    ModeSnapshot.IsCode (r.memory.read Runtime.modeAddr) → expected.InRange →
      ((r.transition expected next).1 = true ↔ r.mode = expected)
  /-- Swaps of the word are swaps of its contents. -/
  swaps : ∀ (r : Runtime) (xs : List Exchange),
    ModeSnapshot.IsCode (r.memory.read Runtime.modeAddr) → (∀ x ∈ xs, x.InRange) →
      r.Mirrors (Exchange.inTurn Exchange.onRuntime xs r)
        (Exchange.inTurn Exchange.onCell xs r.mode)
  /-- Nothing that any number of workers do gives the word other mode bits. -/
  reachable : ∀ {ι : Type} [Fintype ι] [DecidableEq ι] (r : Runtime) (s : System ι),
    r.Created → System.Reachable r s →
      ModeSnapshot.IsCode (s.runtime.memory.read Runtime.modeAddr)

/-- The mode word and its contents stand for each other. -/
theorem ModeSnapshot.faithfulModeWord : FaithfulModeWord where
  read_back s := (ModeSnapshot.decode_encode_iff s).trans ModeSnapshot.inRange_iff
  written_back := ModeSnapshot.encode_decode_iff
  transition _ mem _ _ h hs := ModeSnapshot.inRange_of_mem_transitions mem h hs
  increment f _ _ h hs := f.increment_of_increment? h hs
  increment_iff := WordField.isSome_increment?_iff
  swap_iff r expected next hcode h := by
    have H := Runtime.holds_mode_iff.2 hcode
    rw [Runtime.transition_eq_true_iff, H.word, ModeSnapshot.encode_inj H.inRange h]
  swaps _ _ hcode h := (Runtime.holds_mode_iff.2 hcode).inTurn h
  reachable _ s created h := by
    rw [← Runtime.holds_mode_iff]
    exact ⟨ModeSnapshot.inRange_decode _, (System.valid_of_reachable created h).word⟩

/-- Two full counts are read back, and the word of them can be swapped for that of any other
contents. -/
theorem ModeSnapshot.faithfulModeWord_of_full_counts :
    ∃ (s : ModeSnapshot) (r : Runtime), s.deferred = ModeSnapshot.maxCount ∧
      s.undeferred = ModeSnapshot.maxCount ∧ ModeSnapshot.decode s.encode = s ∧
      r.mode = s ∧ ∀ next, (r.transition s next).1 = true := by
  let s : ModeSnapshot := ⟨.sw, ModeSnapshot.maxCount, ModeSnapshot.maxCount⟩
  let r : Runtime := ⟨{}, .none, .new {} (Memory.zero.write Runtime.modeAddr s.encode), .empty⟩
  have hdecode : ModeSnapshot.decode s.encode = s :=
    (faithfulModeWord.read_back s).2 ⟨le_rfl, le_rfl⟩
  have hread : r.memory.read Runtime.modeAddr = s.encode := Memory.read_write_self _ _ _
  have hmode : r.mode = s := by rw [Runtime.mode, hread, hdecode]
  have hcode : ModeSnapshot.IsCode (r.memory.read Runtime.modeAddr) := by
    rw [hread]
    decide
  exact ⟨s, r, rfl, rfl, hdecode, hmode, fun next =>
    (faithfulModeWord.swap_iff r s next hcode
      ((ModeSnapshot.decode_encode_iff s).1 hdecode)).2 hmode⟩

end HybridTM
