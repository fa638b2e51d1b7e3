import HybridTM.Json.Fields
import Mathlib.Data.List.Nodup
import Mathlib.Data.List.Perm.Subperm

/-!
# Records given in part

An object may give some of the fields of a record, in any order. Its members are then some of those
of the whole record (`List.Subperm`), and no field is among them twice, so each field is found with
the value that the whole record has for it, or it is not found (`lookup_of_subperm`). A field with a
default takes the value that is given or else the default (`withDefault_of_subperm`); a field that
has to be given is found if the members are merely in another order (`required_of_perm`).
-/

set_option autoImplicit false

namespace HybridTM

namespace Json

variable {α : Type} {all given : List (String × Json)} {names : List String} {name : String}
  {v : Json} {decode : Json → Option α} {x : α}

/-- What a field is if it is given, and what it is otherwise. -/
def chosen (given : List (String × Json)) (name : String) (own default : α) : α :=
  if name ∈ given.map Prod.fst then own else default

/-- No field is given twice. -/
theorem nodup_keys_of_subperm (keys : (all.map Prod.fst).Nodup) (h : given.Subperm all) :
    (given.map Prod.fst).Nodup := by
  obtain ⟨l, hperm, hsub⟩ := h
  exact (hperm.map Prod.fst).nodup_iff.1 (keys.sublist (hsub.map Prod.fst))

/-- Members with declared keys are all declared. -/
theorem declaredMembers_of_mem (h : ∀ m ∈ given, m.1 ∈ names) :
    declaredMembers names (given.map fun (key, v) => (some key, v)) = given := by
  induction given with
  | nil => rfl
  | cons m given ih =>
    have hm : m.1 ∈ names := h m List.mem_cons_self
    have htail := ih fun m' hm' => h m' (List.mem_cons_of_mem _ hm')
    rw [List.map_cons, declaredMembers, List.filterMap_cons]
    simp only [Option.filter_some, hm, decide_true, if_true, Option.map_some]
    exact congrArg (m :: ·) htail

/-- A record gives its fields by name. -/
theorem fields?_record (keys : (given.map Prod.fst).Nodup) (h : ∀ m ∈ given, m.1 ∈ names) :
    (record given).fields? names = some ⟨given, false⟩ := by
  rw [record, fields?, declaredMembers_of_mem h]
  refine if_pos ⟨?_, keys⟩
  simp

/-- A field is found with the value that the whole record has for it, if it is given. -/
theorem lookup_of_subperm (keys : (all.map Prod.fst).Nodup) (h : given.Subperm all)
    (mem : (name, v) ∈ all) :
    given.lookup name = if name ∈ given.map Prod.fst then some v else none := by
  split
  · next hgiven =>
    cases hlookup : given.lookup name with
    | none =>
      -- A member with the name would have been found.
      obtain ⟨m, hm, hname⟩ := List.mem_map.1 hgiven
      have hne := List.lookup_eq_none_iff.1 hlookup m hm
      simp [hname] at hne
    | some w =>
      obtain ⟨before, after, heq, -⟩ := List.lookup_eq_some_iff.1 hlookup
      have hw : (name, w) ∈ all := h.subset (heq ▸ List.mem_append_right _ List.mem_cons_self)
      -- The whole record has one value only for the name.
      have hsame := List.inj_on_of_nodup_map keys hw mem rfl
      rw [(Prod.mk.inj hsame).2]
  · next hgiven =>
    refine List.lookup_eq_none_iff.2 fun m hm => ?_
    rw [bne_iff_ne]
    rintro rfl
    exact hgiven (List.mem_map_of_mem hm)

namespace Fields

/-- A field takes the value that is given for it, or else its default. -/
theorem withDefault_of_subperm (keys : (all.map Prod.fst).Nodup) (h : given.Subperm all)
    (name : String) (mem : (name, v) ∈ all) (reads : decode v = some x) (default : α) :
    withDefault ⟨given, false⟩ name decode default = some (chosen given name x default) := by
  rw [withDefault, find?, lookup_of_subperm keys h mem, chosen]
  by_cases hgiven : name ∈ given.map Prod.fst
  · rw [if_pos hgiven, if_pos hgiven]
    exact reads
  · rw [if_neg hgiven, if_neg hgiven]

/-- A field that has to be given is found in any order. -/
theorem required_of_perm (keys : (all.map Prod.fst).Nodup) (h : given.Perm all)
    (mem : (name, v) ∈ all) : required ⟨given, false⟩ name decode = decode v := by
  have hgiven : name ∈ given.map Prod.fst := List.mem_map_of_mem (h.mem_iff.2 mem)
  rw [required, find?, lookup_of_subperm keys h.subperm mem, if_pos hgiven, Option.bind_some]

end Fields

end Json

end HybridTM
