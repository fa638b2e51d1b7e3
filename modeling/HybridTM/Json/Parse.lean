import HybridTM.Json.Token

/-!
# Reading JSON

Tokens are assembled to a value by a machine that keeps the containers still open,
innermost first, so that nesting is limited by nothing. `Json.parse?` accepts exactly one
value with blanks around it.
-/

namespace HybridTM

namespace Json

/-- A container that is still open. -/
inductive Frame where
  /-- An array with its items so far, latest first. -/
  | array (items : List Json)
  /-- An object with its members so far, latest first, and the key of the member that is
  being read. -/
  | object (members : List (Text × Json)) (key : Text)
  deriving Repr

/-- What may come next. -/
inductive Expecting where
  /-- A value. -/
  | value
  /-- A value, or the end of an array that has no items yet. -/
  | firstItem
  /-- A key of the object with the given members. -/
  | key (members : List (Text × Json))
  /-- A key, or the end of an object that has no members yet. -/
  | firstKey
  /-- The colon after a key. -/
  | colon (members : List (Text × Json)) (key : Text)
  /-- A comma or the end of the innermost container, after an item or member. -/
  | separator (last : Json)
  deriving Repr

/-- The state of the machine. -/
structure Assembly where
  /-- The open containers, innermost first, without an object whose key is awaited. -/
  frames : List Frame
  /-- What may come next. -/
  expecting : Expecting
  deriving Repr

namespace Assembly

/-- The machine before any token. -/
def start : Assembly := ⟨[], .value⟩

/-- The machine after a complete value. -/
def close (frames : List Frame) (v : Json) : Assembly := ⟨frames, .separator v⟩

/-- The machine after the first token of a value. -/
def beginValue (frames : List Frame) : Token → Option Assembly
  | .null => some (close frames .null)
  | .bool b => some (close frames (.bool b))
  | .number n => some (close frames (.number n))
  | .string text => some (close frames (.string text))
  | .beginArray => some ⟨.array [] :: frames, .firstItem⟩
  | .beginObject => some ⟨frames, .firstKey⟩
  | .endArray | .endObject | .comma | .colon => none

/-- The machine after a comma or an end that follows the value `last`. -/
def afterValue (last : Json) : List Frame → Token → Option Assembly
  | .array items :: frames, .comma => some ⟨.array (last :: items) :: frames, .value⟩
  | .array items :: frames, .endArray =>
      some (close frames (.array (last :: items).reverse))
  | .object members key :: frames, .comma => some ⟨frames, .key ((key, last) :: members)⟩
  | .object members key :: frames, .endObject =>
      some (close frames (.object ((key, last) :: members).reverse))
  | _, _ => none

/-- The machine after one more token. -/
def step (s : Assembly) (t : Token) : Option Assembly :=
  match s.expecting with
  | .value => beginValue s.frames t
  | .firstItem =>
      match s.frames, t with
      | .array items :: frames, .endArray => some (close frames (.array items.reverse))
      | frames, t => beginValue frames t
  | .firstKey =>
      match t with
      | .endObject => some (close s.frames (.object []))
      | .string key => some ⟨s.frames, .colon [] key⟩
      | _ => none
  | .key members =>
      match t with
      | .string key => some ⟨s.frames, .colon members key⟩
      | _ => none
  | .colon members key =>
      match t with
      | .colon => some ⟨.object members key :: s.frames, .value⟩
      | _ => none
  | .separator last => afterValue last s.frames t

/-- The value of the whole text, if it may end here. -/
def finish (s : Assembly) : Option Json :=
  match s.frames, s.expecting with
  | [], .separator v => some v
  | _, _ => none

/-- The machine after a list of tokens. -/
def run (s : Assembly) (ts : List Token) : Option Assembly := ts.foldlM step s

end Assembly

/-- The value that tokens make up. -/
def ofTokens? (ts : List Token) : Option Json := do
  let s ← Assembly.start.run ts
  s.finish

/-- The value that a text stands for. -/
def parse? (s : String) : Option Json := do
  let ts ← tokens? s.toList
  ofTokens? ts

end Json

end HybridTM
