import HybridTM.Json.Basic

/-!
# Fields of records

A record with a declared list of fields is written as an object or as an array of its
fields in declared order. An object may have other members beside, but no declared field
twice, and its keys are text. An array has no more items than there are fields.
-/

namespace HybridTM

namespace Json

/-- The fields of a record as they were given. -/
structure Fields where
  /-- The values by field name. -/
  given : List (String × Json)
  /-- Whether they were given by position. -/
  positional : Bool

/-- The members of an object whose keys are among the declared names. -/
def declaredMembers (names : List String) (members : List (Text × Json)) :
    List (String × Json) :=
  members.filterMap fun (key, v) => (key.filter (· ∈ names)).map (·, v)

/-- The fields that a value gives for a record with the declared names. -/
def fields? (names : List String) : Json → Option Fields
  | .object members =>
      let given := declaredMembers names members
      if members.all (·.1.isSome) ∧ (given.map Prod.fst).Nodup then
        some ⟨given, false⟩
      else
        none
  | .array items =>
      if items.length ≤ names.length then some ⟨names.zip items, true⟩ else none
  | _ => none

namespace Fields

/-- The value given for a field. -/
def find? (f : Fields) (name : String) : Option Json := f.given.lookup name

/-- A field that has to be given. -/
def required {α : Type} (f : Fields) (name : String) (decode : Json → Option α) :
    Option α :=
  (f.find? name).bind decode

/-- A field with a default for when it is not given. -/
def withDefault {α : Type} (f : Fields) (name : String) (decode : Json → Option α)
    (default : α) : Option α :=
  match f.find? name with
  | none => some default
  | some v => decode v

/-- A field whose value may be absent: `null`, or not given in an object. -/
def optional {α : Type} (f : Fields) (name : String) (decode : Json → Option α) :
    Option (Option α) :=
  match f.find? name with
  | none => if f.positional then none else some none
  | some .null => some none
  | some v => (decode v).map some

end Fields

end Json

end HybridTM
