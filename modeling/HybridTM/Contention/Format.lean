import HybridTM.Contention.Manager
import HybridTM.Json.Fields
import HybridTM.Json.Float

/-!
# Policies as JSON

A policy is an object whose member `policy` names it and whose other members are its
parameters, or an array of the name and the parameters in declared order. Parameters that
a policy does not have are ignored in an object; even so every value in it has to be one
that can be held: numbers finite, strings text, and not nested too deeply.
-/

namespace HybridTM

namespace Json

/-- The number of containers that may lie around each other in a value that is held
before it is understood. -/
def nestingLimit : Nat := 127

/-- Whether a value can be held: its numbers are finite, its strings are text, and no more
than `depth` containers lie around each other. -/
def fits : Nat → Json → Bool
  | _, .null | _, .bool _ => true
  | _, .number n => n.float?.isSome
  | _, .string text => text.isSome
  | 0, .array _ | 0, .object _ => false
  | depth + 1, .array items => items.all (fits depth)
  | depth + 1, .object members => members.all fun (key, v) => key.isSome && fits depth v

end Json

namespace Policy

/-- The name of a policy in configuration. -/
def tag : Policy → String
  | .aggressive => "aggressive"
  | .backoff .. => "backoff"
  | .hourglass .. => "hourglass"
  | .hourglassBackoff .. => "hourglass_backoff"

/-- The parameters of a policy in declared order. -/
def parameters : Policy → List (String × UInt32)
  | .aggressive => []
  | .backoff lo hi => [("min_spins", lo), ("max_spins", hi)]
  | .hourglass n => [("threshold", n)]
  | .hourglassBackoff n lo hi => [("threshold", n), ("min_spins", lo), ("max_spins", hi)]

/-- The JSON form. -/
def toJson (p : Policy) : Json :=
  .record (("policy", .ofText p.tag) ::
    p.parameters.map fun (name, value) => (name, .ofCount value))

/-- The policy of a name with its parameters. -/
def ofTag? (tag : String) (parameters : Json) : Option Policy :=
  match tag with
  | "aggressive" => if parameters matches .array (_ :: _) then none else some .aggressive
  | "backoff" => do
      let f ← parameters.fields? ["min_spins", "max_spins"]
      let lo ← f.required "min_spins" Json.count?
      let hi ← f.required "max_spins" Json.count?
      some (.backoff lo hi)
  | "hourglass" => do
      let f ← parameters.fields? ["threshold"]
      let n ← f.required "threshold" Json.count?
      some (.hourglass n)
  | "hourglass_backoff" => do
      let f ← parameters.fields? ["threshold", "min_spins", "max_spins"]
      let n ← f.required "threshold" Json.count?
      let lo ← f.required "min_spins" Json.count?
      let hi ← f.required "max_spins" Json.count?
      some (.hourglassBackoff n lo hi)
  | _ => none

/-- The policy that a JSON value stands for, which lies within `outer` other
containers. -/
def ofJson? (outer : Nat) (v : Json) : Option Policy :=
  if v.fits (Json.nestingLimit - outer) then
    match v with
    | .object members =>
        match members.partition (·.1 = some "policy") with
        | ([(_, .string (some tag))], others) => ofTag? tag (.object others)
        | _ => none
    | .array (.string (some tag) :: others) => ofTag? tag (.array others)
    | _ => none
  else
    none

end Policy

end HybridTM
