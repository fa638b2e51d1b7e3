import HybridTM.Text
import HybridTM.Word

/-!
# Shared memory

Memory assigns a word to every address. A masked store changes the selected bits of one
word only, and a compare-and-swap changes one word or none.
-/

namespace HybridTM

/-- The byte address of a word. Distinct words have distinct addresses. -/
abbrev Addr := Nat

/-- The address of a word in a row of words that begins at zero. -/
def wordAddr (i : Nat) : Addr := 8 * i

/-- The contents of shared memory at one moment. -/
@[ext]
structure Memory where
  /-- The word at an address. -/
  read : Addr → Word

namespace Memory

/-- Memory in which every word is zero. -/
def zero : Memory := ⟨fun _ => 0⟩

/-- Memory that begins with the given row of words and is zero after it. -/
def ofWords (ws : List Word) : Memory :=
  let table := ws.toArray
  ⟨fun a => table.getD (a / 8) 0⟩

/-- The first `n` words in a row that begins at the word `first`. -/
def row (m : Memory) (first n : Nat) : List Word :=
  (List.range n).map fun i => m.read (wordAddr (first + i))

/-- The memory after the word at `a` became `v`. -/
def write (m : Memory) (a : Addr) (v : Word) : Memory :=
  ⟨fun b => if b = a then v else m.read b⟩

/-- The memory after the masked bits of the word at `a` became those of `v`. -/
def store (m : Memory) (a : Addr) (v : Word) (mask : Mask) : Memory :=
  m.write a (merge (m.read a) v mask)

/-- Replace the word at `a` by `new` if it is `current`. The result is the word found,
as a success or as a failure. -/
def compareExchange (m : Memory) (a : Addr) (current new : Word) :
    Except Word Word × Memory :=
  let seen := m.read a
  if seen = current then (.ok seen, m.write a new) else (.error seen, m)

/-- The number of bytes in a cache line. -/
def cacheLine : Nat := 64

/-- The diagnostic text of a word, where `place` is the text of its address. -/
def wordText (place : String) (v : Word) : String :=
  recordText "TmWord" [("addr", place), ("value", toString v.toNat)]

/-- The same memory, with the words at the addresses `8 * k` for `k < n` looked up in a
table. Long runs of writes read faster from it. -/
def tabulate (n : Nat) (m : Memory) : Memory :=
  let table := Array.ofFn fun k : Fin n => m.read (8 * k)
  ⟨fun a =>
    if h : a / 8 < table.size then
      if a % 8 = 0 then table[a / 8] else m.read a
    else
      m.read a⟩

@[simp]
theorem read_write_self (m : Memory) (a : Addr) (v : Word) : (m.write a v).read a = v := by
  simp [write]

theorem read_write (m : Memory) (a b : Addr) (v : Word) :
    (m.write a v).read b = if b = a then v else m.read b := rfl

theorem read_store (m : Memory) (a b : Addr) (v : Word) (mask : Mask) :
    (m.store a v mask).read b = if b = a then merge (m.read a) v mask else m.read b := rfl

/-- A table is only another way to look words up. -/
@[simp]
theorem tabulate_eq (n : Nat) (m : Memory) : m.tabulate n = m := by
  apply Memory.ext
  funext a
  simp only [tabulate, Array.getElem_ofFn]
  split
  · by_cases h : a % 8 = 0
    · rw [if_pos h, Nat.mul_div_cancel' (Nat.dvd_of_mod_eq_zero h)]
    · rw [if_neg h]
  · rfl

end Memory

end HybridTM
