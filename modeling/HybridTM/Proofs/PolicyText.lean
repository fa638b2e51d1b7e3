import HybridTM.Contention.Format
import HybridTM.Proofs.CounterNumerals
import HybridTM.Proofs.Excerpts
import HybridTM.Proofs.Numerals

/-!
# Policies as text

A policy is an object whose members are its name and its parameters. In whatever order they are
given, the name is singled out, the parameters are found under it, and the policy is read back
(`ofJson?_of_perm`). It has to be held before it is understood, which its numbers and its name
allow (`fits_of_mem_members`).
-/

set_option autoImplicit false

namespace HybridTM

namespace Json

theorem fits_ofText (depth : Nat) (s : String) : (ofText s).fits depth = true := by
  cases depth <;> rfl

theorem fits_ofCount (depth : Nat) (n : UInt32) : (ofCount n).fits depth = true := by
  have hsize : n.toNat < UInt64.size := n.toNat_lt_size.trans (by decide)
  obtain ⟨x, hx, -⟩ := exists_float?_ofNat hsize
  have hsome : (Number.ofNat n.toNat).float?.isSome = true := by
    rw [hx]
    rfl
  cases depth <;> exact hsome

end Json

namespace Policy

/-- The members for the parameters of a policy. -/
def parameterMembers (p : Policy) : List (String × Json) :=
  p.parameters.map fun (name, value) => (name, .ofCount value)

/-- The members of a policy in declared order. -/
def members (p : Policy) : List (String × Json) := ("policy", .ofText p.tag) :: p.parameterMembers

theorem nodup_keys_parameterMembers (p : Policy) :
    (p.parameterMembers.map Prod.fst).Nodup := by
  cases p <;> simp [parameterMembers, parameters]

/-- No parameter is called as the name is. -/
theorem filter_members (p : Policy) :
    p.members.filter (fun m => decide (m.1 = "policy")) = [("policy", .ofText p.tag)] ∧
      p.members.filter (fun m => !decide (m.1 = "policy")) = p.parameterMembers := by
  cases p <;> simp [members, parameterMembers, parameters]

variable {p : Policy} {given : List (String × Json)}

theorem fits_of_mem_members {m : String × Json} (h : m ∈ p.members) (depth : Nat) :
    m.2.fits depth = true := by
  rcases List.mem_cons.1 h with rfl | h
  · exact Json.fits_ofText depth p.tag
  · obtain ⟨parameter, -, rfl⟩ := List.mem_map.1 h
    exact Json.fits_ofCount depth parameter.2

theorem writable_of_mem_members {m : String × Json} (h : m ∈ p.members) : m.2.Writable := by
  rcases List.mem_cons.1 h with rfl | h
  · exact Json.writable_ofText p.tag
  · obtain ⟨parameter, -, rfl⟩ := List.mem_map.1 h
    exact Json.writable_ofCount parameter.2

/-- The parameters of a policy are found in any order. -/
theorem ofTag?_of_perm (h : given.Perm p.parameterMembers) :
    ofTag? p.tag (.record given) = some p := by
  have keys := p.nodup_keys_parameterMembers
  have hkeys := Json.nodup_keys_of_subperm keys h.subperm
  have hfields : (Json.record given).fields? (p.parameterMembers.map Prod.fst) =
      some ⟨given, false⟩ :=
    Json.fields?_record hkeys fun m hm => List.mem_map_of_mem (h.mem_iff.1 hm)
  have hrequired (name : String) (value : UInt32) (mem : (name, value) ∈ p.parameters) :
      Json.Fields.required ⟨given, false⟩ name Json.count? = some value := by
    rw [Json.Fields.required_of_perm keys h (List.mem_map_of_mem mem), Json.count?_ofCount]
  cases p with
  | aggressive => rfl
  | backoff lo hi =>
    have hlo := hrequired "min_spins" lo (by simp [parameters])
    have hhi := hrequired "max_spins" hi (by simp [parameters])
    replace hfields : (Json.record given).fields? ["min_spins", "max_spins"] = _ := hfields
    simp [ofTag?, tag, hfields, hlo, hhi]
  | hourglass n =>
    have hn := hrequired "threshold" n (by simp [parameters])
    replace hfields : (Json.record given).fields? ["threshold"] = _ := hfields
    simp [ofTag?, tag, hfields, hn]
  | hourglassBackoff n lo hi =>
    have hn := hrequired "threshold" n (by simp [parameters])
    have hlo := hrequired "min_spins" lo (by simp [parameters])
    have hhi := hrequired "max_spins" hi (by simp [parameters])
    replace hfields : (Json.record given).fields? ["threshold", "min_spins", "max_spins"] = _ :=
      hfields
    simp [ofTag?, tag, hfields, hn, hlo, hhi]

/-- A policy is read back from its members in any order. -/
theorem ofJson?_of_perm (h : given.Perm p.members) {outer : Nat}
    (room : outer < Json.nestingLimit) : ofJson? outer (.record given) = some p := by
  obtain ⟨depth, hdepth⟩ : ∃ depth, Json.nestingLimit - outer = depth + 1 :=
    ⟨Json.nestingLimit - outer - 1, by omega⟩
  have hfits : (Json.record given).fits (Json.nestingLimit - outer) = true := by
    rw [hdepth, Json.record, Json.fits, List.all_eq_true]
    intro m hm
    obtain ⟨field, hfield, rfl⟩ := List.mem_map.1 hm
    exact fits_of_mem_members (h.mem_iff.1 hfield) depth
  -- The name is the only member called so, and the others are the parameters.
  have htag : given.filter (fun m => decide (m.1 = "policy")) = [("policy", .ofText p.tag)] := by
    have hperm := h.filter (fun m => decide (m.1 = "policy"))
    rw [p.filter_members.1] at hperm
    exact List.perm_singleton.1 hperm
  have hothers : (given.filter (fun m => !decide (m.1 = "policy"))).Perm p.parameterMembers := by
    have hperm := h.filter (fun m => !decide (m.1 = "policy"))
    rwa [p.filter_members.2] at hperm
  have hpartition : (given.map fun m => (some m.1, m.2)).partition (·.1 = some "policy") =
      ([(some "policy", .ofText p.tag)],
        (given.filter (fun m => !decide (m.1 = "policy"))).map fun m => (some m.1, m.2)) := by
    rw [List.partition_eq_filter_filter, List.filter_map, List.filter_map]
    simp only [Function.comp_def, Option.some.injEq]
    rw [htag]
    rfl
  rw [Json.record] at hfits ⊢
  rw [ofJson?, if_pos hfits, hpartition]
  exact ofTag?_of_perm hothers

end Policy

end HybridTM
