/-!
# Words and byte masks

The unit of shared memory is a 64-bit word. An access names the bytes it touches by a
mask: byte `i` of a word occupies the bits `8 * i` up to `8 * i + 8`, and nothing asks a
mask to consist of whole bytes.
-/

namespace HybridTM

/-- The contents of one word of shared memory. -/
abbrev Word := UInt64

/-- The bits of a word that an access touches. -/
abbrev Mask := UInt64

/-- Every bit of a word. -/
def fullMask : Mask := 0xFFFFFFFFFFFFFFFF

/-- The mask of `len` bytes from byte `offset` on. Bytes past the end of the word are
left out. -/
def byteMask (offset len : Nat) : Mask :=
  if 8 ≤ offset ∨ len = 0 then
    0
  else
    let bits := (min (offset + len) 8 - offset) * 8
    let low := if bits = 64 then fullMask else (1 <<< UInt64.ofNat bits) - 1
    low <<< UInt64.ofNat (offset * 8)

/-- The word `base` with the masked bits replaced by those of `update`. -/
def merge (base update : Word) (mask : Mask) : Word :=
  (base &&& ~~~mask) ||| (update &&& mask)

/-- Whether `outer` selects every bit that `inner` selects. -/
def covers (outer inner : Mask) : Bool :=
  outer &&& inner == inner

end HybridTM
