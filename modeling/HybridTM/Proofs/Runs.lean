import Mathlib.Algebra.Ring.Nat
import Mathlib.Data.List.DropRight
import Mathlib.Logic.Relation

/-!
# Runs and their records

A run makes given steps one after the other, as long as they are possible. Where a run leads,
single steps lead (`reflTransGen_of_run`).

The record of a run has its latest entry last. With one entry more, what is counted or summed up
over the record grows by what the entry adds; what is counted since the last entry of some kind
begins anew with an entry of that kind; and the entry is the latest one if it is of the kind that is
looked for. An occurrence in the longer record is one in the shorter, or the new entry.
-/

set_option autoImplicit false

namespace HybridTM

section

variable {σ α : Type} {R : σ → σ → Prop} {run : σ → List α → Option σ} {s s' : σ} {xs : List α}

/-- A run of allowed steps leads where a relation leads that holds of each of them. -/
theorem reflTransGen_of_allowed {Allowed : α → Prop} (nil : ∀ s, run s [] = some s)
    (cons : ∀ s x xs s', Allowed x → run s (x :: xs) = some s' →
      ∃ s₁, R s s₁ ∧ run s₁ xs = some s')
    (allowed : ∀ x ∈ xs, Allowed x) (h : run s xs = some s') : Relation.ReflTransGen R s s' := by
  induction xs generalizing s with
  | nil =>
    rw [nil] at h
    obtain rfl := Option.some.inj h
    exact .refl
  | cons x xs ih =>
    obtain ⟨s₁, hstep, hrest⟩ := cons s x xs s' (allowed x List.mem_cons_self) h
    exact .head hstep (ih (fun y hy => allowed y (List.mem_cons_of_mem _ hy)) hrest)

/-- A run leads where a relation leads that holds of each of its steps. -/
theorem reflTransGen_of_run (nil : ∀ s, run s [] = some s)
    (cons : ∀ s x xs s', run s (x :: xs) = some s' → ∃ s₁, R s s₁ ∧ run s₁ xs = some s')
    (h : run s xs = some s') : Relation.ReflTransGen R s s' :=
  reflTransGen_of_allowed nil (fun s x xs s' (_ : True) => cons s x xs s') (fun _ _ => trivial) h

end

/-! ## Records that grow at the end -/

section

variable {α β : Type} {p q : α → Bool} {l : List α} {x : α}

theorem countP_concat : (l ++ [x]).countP p = l.countP p + if p x = true then 1 else 0 := by
  rw [List.countP_append, List.countP_singleton]

theorem sum_map_concat {f : α → Nat} : ((l ++ [x]).map f).sum = (l.map f).sum + f x := by
  rw [List.map_append, List.sum_append_nat, List.map_singleton, List.sum_singleton]

/-- What is counted since the last entry that is not `p`. -/
theorem countP_rtakeWhile_concat : ((l ++ [x]).rtakeWhile p).countP q =
    if p x = true then (l.rtakeWhile p).countP q + if q x = true then 1 else 0 else 0 := by
  rw [List.rtakeWhile_concat]
  split
  · exact countP_concat
  · rfl

/-- The latest entry that is something. -/
theorem findSome?_reverse_concat {f : α → Option β} :
    (l ++ [x]).reverse.findSome? f = (f x).or (l.reverse.findSome? f) := by
  rw [List.reverse_concat, List.findSome?_cons]
  cases f x <;> rfl

/-- An occurrence in a list with one more entry is that entry, or an occurrence before it. -/
theorem concat_eq_append_cons {before after : List α} {z : α}
    (h : l ++ [z] = before ++ x :: after) :
    (after = [] ∧ z = x) ∨ ∃ after', after = after' ++ [z] ∧ l = before ++ x :: after' := by
  rcases List.eq_nil_or_concat after with rfl | ⟨after', y, rfl⟩
  · exact Or.inl ⟨rfl, (List.append_inj_right' h rfl |> List.singleton_inj.1)⟩
  · rw [List.concat_eq_append, ← List.cons_append, ← List.append_assoc] at h
    obtain ⟨hl, hz⟩ := List.append_inj' h rfl
    rw [List.concat_eq_append, List.singleton_inj.1 hz]
    exact Or.inr ⟨after', rfl, hl⟩

/-- An occurrence in two lists, one after the other, is one in the first or in the second. -/
theorem append_eq_append_cons {t before after : List α} (h : l ++ t = before ++ x :: after) :
    (∃ after', after = after' ++ t ∧ l = before ++ x :: after') ∨
      ∃ between, before = l ++ between ∧ t = between ++ x :: after := by
  rcases List.append_eq_append_iff.1 h with ⟨between, hbefore, ht⟩ | ⟨rest, hl, hx⟩
  · exact Or.inr ⟨between, hbefore, ht⟩
  · rcases rest with _ | ⟨y, after'⟩
    · exact Or.inr ⟨[], by rw [hl, List.append_nil, List.append_nil], hx.symm⟩
    · obtain ⟨rfl, rfl⟩ := List.cons.inj hx
      exact Or.inl ⟨after', rfl, hl⟩

end

end HybridTM
