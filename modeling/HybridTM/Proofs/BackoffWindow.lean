import HybridTM.Proofs.HourglassToken
import Mathlib.Algebra.Order.Ring.Nat
import Mathlib.Data.List.Induction

/-!
# The window of a backoff

The window of a backoff depends on nothing but the number of aborts since the last commit: it is the
least window doubled as often, and never larger than the largest (`Backoff.isAfter_after`). Doubling
stops at the largest 32-bit number, but the largest window is no larger, so that this never shows
(`Backoff.toNat_window_onAbort`).

A backoff may be a part of a manager, however that is composed. What happens to the token and to all
other parts does not matter to it (`ManagerPool.StepBeside`): it is what a backoff of its own is
that was told the same calls, no call has to wait for it, and between two calls all parts of the
manager were told the same (`Backoff.windowLaw`).
-/

set_option autoImplicit false

namespace HybridTM

/-- Without a commit the aborts in a row do not become fewer. -/
theorem abortsInARow_le_append (calls : List ManagerCall) {more : List ManagerCall}
    (h : .commit ∉ more) : abortsInARow calls ≤ abortsInARow (calls ++ more) := by
  induction more using List.reverseRecOn with
  | nil => rw [List.append_nil]
  | append_singleton more c ih =>
    have hle := ih fun hmem => h (List.mem_append_left _ hmem)
    rw [← List.append_assoc, abortsInARow_concat]
    cases c with
    | begin | drop => exact hle
    | abort => exact hle.trans (Nat.le_succ _)
    | commit => exact absurd (List.mem_append_right _ List.mem_cons_self) h

/-! ## Backoff on its own -/

namespace Backoff

/-- The least window, which is never empty. -/
def least (lo : UInt32) : Nat := max lo.toNat 1

/-- The largest window, which is at least the least. -/
def most (lo hi : UInt32) : Nat := max hi.toNat (least lo)

/-- What a call does to a backoff. -/
def tell (b : Backoff) : ManagerCall → Backoff
  | .commit => b.onCommit
  | .abort => b.onAbort
  | .begin | .drop => b

/-- A backoff after the given calls, oldest first. -/
def after (lo hi : UInt32) (calls : List ManagerCall) : Backoff := calls.foldl tell (.new lo hi)

/-- A backoff after the given number of aborts since the last commit. -/
structure IsAfter (lo hi : UInt32) (aborts : Nat) (b : Backoff) : Prop where
  /-- A commit leads to the least window. -/
  minSpins : b.minSpins.toNat = least lo
  /-- The largest window. -/
  maxSpins : b.maxSpins.toNat = most lo hi
  /-- The window is the least one doubled as often, up to the largest. -/
  window : b.window.toNat = min (least lo * 2 ^ aborts) (most lo hi)

/-- How a backoff waits that was told the given calls. -/
structure WindowLaw (lo hi : UInt32) (calls : List ManagerCall) : Prop where
  /-- The window is the least one, doubled for each abort since the last commit, up to the
  largest. -/
  window : (after lo hi calls).window.toNat = min (least lo * 2 ^ abortsInARow calls) (most lo hi)
  /-- It is never empty. -/
  pos : 1 ≤ (after lo hi calls).window.toNat
  /-- It is no smaller than the least one. -/
  least_le : least lo ≤ (after lo hi calls).window.toNat
  /-- It is no larger than the largest. -/
  le_most : (after lo hi calls).window.toNat ≤ most lo hi
  /-- It does not shrink before the next commit. -/
  grows : ∀ more, .commit ∉ more →
    (after lo hi calls).window ≤ (after lo hi (calls ++ more)).window
  /-- With the next abort the thread waits for some number of spins up to the window. -/
  spins : ∀ n, (after lo hi calls).Spins n ↔
    n ≤ min (least lo * 2 ^ abortsInARow calls) (most lo hi)
  /-- There is such a number. -/
  exists_spins : ∃ n, (after lo hi calls).Spins n

variable {lo hi : UInt32} {b : Backoff} {n : Nat}

theorem least_pos (lo : UInt32) : 1 ≤ least lo := le_max_right ..

theorem least_le_most (lo hi : UInt32) : least lo ≤ most lo hi := le_max_right ..

/-- Where doubling stops at the largest number, the window is the largest one anyway. -/
theorem toNat_window_onAbort (b : Backoff) :
    b.onAbort.window.toNat = min (b.window.toNat * 2) b.maxSpins.toNat := by
  have hlt := b.maxSpins.toNat_lt
  show (min (double b.window) b.maxSpins).toNat = _
  rw [UInt32.toNat_min, toNat_double]
  simp only [UInt32.size]
  omega

theorem isAfter_new (lo hi : UInt32) : (new lo hi).IsAfter lo hi 0 := by
  have hleast : (max lo 1).toNat = least lo := UInt32.toNat_max ..
  refine ⟨hleast, ?_, ?_⟩
  · show (max hi (max lo 1)).toNat = _
    rw [UInt32.toNat_max, hleast, most]
  · show (max lo 1).toNat = _
    rw [hleast, pow_zero, mul_one, min_eq_left (least_le_most lo hi)]

namespace IsAfter

/-- An abort doubles the window. -/
theorem onAbort (I : b.IsAfter lo hi n) : b.onAbort.IsAfter lo hi (n + 1) := by
  refine ⟨I.minSpins, I.maxSpins, ?_⟩
  rw [toNat_window_onAbort, I.window, I.maxSpins, pow_succ, ← mul_assoc]
  omega

/-- A commit resets it. -/
theorem onCommit (I : b.IsAfter lo hi n) : b.onCommit.IsAfter lo hi 0 := by
  refine ⟨I.minSpins, I.maxSpins, ?_⟩
  rw [pow_zero, mul_one, min_eq_left (least_le_most lo hi)]
  exact I.minSpins

/-- Every call keeps the count of aborts. -/
theorem tell {calls : List ManagerCall} (I : b.IsAfter lo hi (abortsInARow calls))
    (c : ManagerCall) : (b.tell c).IsAfter lo hi (abortsInARow (calls ++ [c])) := by
  rw [abortsInARow_concat]
  cases c with
  | begin | drop => exact I
  | commit => exact I.onCommit
  | abort => exact I.onAbort

theorem least_le (I : b.IsAfter lo hi n) : least lo ≤ b.window.toNat := by
  rw [I.window]
  exact le_min (Nat.le_mul_of_pos_right _ (Nat.two_pow_pos n)) (least_le_most lo hi)

theorem le_most (I : b.IsAfter lo hi n) : b.window.toNat ≤ most lo hi :=
  I.window.trans_le (min_le_right ..)

/-- More aborts lead to no smaller window. -/
theorem window_le {b' : Backoff} {n' : Nat} (I : b.IsAfter lo hi n) (I' : b'.IsAfter lo hi n')
    (h : n ≤ n') : b.window ≤ b'.window := by
  rw [UInt32.le_iff_toNat_le, I.window, I'.window]
  exact min_le_min_right _ (Nat.mul_le_mul_left _ (Nat.pow_le_pow_right two_pos h))

end IsAfter

theorem after_concat (lo hi : UInt32) (calls : List ManagerCall) (c : ManagerCall) :
    after lo hi (calls ++ [c]) = (after lo hi calls).tell c := List.foldl_concat ..

/-- After any calls the window is that of the aborts since the last commit. -/
theorem isAfter_after (lo hi : UInt32) (calls : List ManagerCall) :
    (after lo hi calls).IsAfter lo hi (abortsInARow calls) := by
  induction calls using List.reverseRecOn with
  | nil => exact isAfter_new lo hi
  | append_singleton calls c ih =>
    rw [after_concat]
    exact ih.tell c

/-- Any two bounds, in either order, lead to a lawful window after any calls. -/
theorem windowLaw_after (lo hi : UInt32) (calls : List ManagerCall) : WindowLaw lo hi calls := by
  have I := isAfter_after lo hi calls
  refine ⟨I.window, (least_pos lo).trans I.least_le, I.least_le, I.le_most, fun more h => ?_,
    fun n => ?_, ⟨0, Nat.zero_le _⟩⟩
  · exact I.window_le (isAfter_after lo hi (calls ++ more)) (abortsInARow_le_append calls h)
  · rw [Spins, I.window]

end Backoff

/-! ## Backoff among other parts -/

namespace Backoff

/-- A backoff as a part that was told the given calls. There is none once it was dropped. -/
def part (lo hi : UInt32) (calls : List ManagerCall) : Option Manager :=
  if .drop ∈ calls then none else some (.backoff (after lo hi calls))

theorem part_of_not_mem {lo hi : UInt32} {calls : List ManagerCall} (h : .drop ∉ calls) :
    part lo hi calls = some (.backoff (after lo hi calls)) := if_neg h

/-- A backoff can always be told of a call. It does not look at the token. -/
theorem tell_manager (b : Backoff) (token : Token) (c : ManagerCall) :
    (Manager.backoff b).tell token c =
      some (if c = .drop then none else some (.backoff (b.tell c)), token) := by
  cases c <;> rfl

/-- A part that is told of a further call is the part that was told of one call more. -/
theorem part_concat {lo hi : UInt32} {calls : List ManagerCall} {m : Manager}
    {m' : Option Manager} {token token' : Token} {c : ManagerCall} (h : part lo hi calls = some m)
    (told : m.tell token c = some (m', token')) : part lo hi (calls ++ [c]) = m' := by
  unfold part at h ⊢
  split at h
  · cases h
  · next hdrop =>
    obtain rfl := Option.some.inj h
    rw [tell_manager] at told
    obtain ⟨rfl, -⟩ := Prod.mk.inj (Option.some.inj told)
    simp [hdrop, after_concat, eq_comm]

end Backoff

namespace ManagerPool

variable {ι : Type} {m₀ : ι → Manager} {s s' : ManagerPool ι} {i : ι} {p : ι × Nat}
  {c : ManagerCall} {lo hi : UInt32}

/-! ### What parts were told -/

/-- What the call under way on a manager has told a part. -/
def begun (s : ManagerPool ι) (i : ι) (k : Nat) : List ManagerCall :=
  match s.underway i with
  | some (c, next) => if k < next then [c] else []
  | none => []

/-- The parts before the one that a call comes to next were told of it. -/
theorem begun_of_next {k : Nat} (hk : s.next i c = some k) (j : Nat) :
    s.begun i j = if j < k then [c] else [] := by
  unfold next at hk
  unfold begun
  cases hunderway : s.underway i with
  | none =>
    rw [hunderway] at hk
    obtain rfl := Option.some.inj hk
    rfl
  | some call =>
    obtain ⟨c', k'⟩ := call
    simp only [hunderway, Option.ite_none_right_eq_some, Option.some.injEq] at hk
    obtain ⟨rfl, rfl⟩ := hk
    rfl

/-- What is kept by steps beside a backoff. -/
structure Tracks (m₀ : ι → Manager) (lo hi : UInt32) (p : ι × Nat) (s : ManagerPool ι) :
    Prop where
  /-- The part is what a backoff of its own is that was told the same calls. -/
  part : s.part p = Backoff.part lo hi (s.told p)
  /-- No manager gets other parts. -/
  size : s.size = fun i => (m₀ i).parts.length
  /-- All parts of the manager were told the same calls, except for the one under way. -/
  told : ∃ calls, ∀ k < s.size p.1, s.told (p.1, k) = calls ++ s.begun p.1 k

theorem Tracks.init (origin : (m₀ p.1).parts[p.2]? = some (.backoff (.new lo hi))) :
    (init m₀).Tracks m₀ lo hi p :=
  ⟨origin, rfl, [], fun _ _ => rfl⟩

variable [DecidableEq ι]

/-- A call goes on, or something happens beside the part `p`: the token and all other parts change
in some way. -/
inductive StepBeside (p : ι × Nat) (s s' : ManagerPool ι) : Prop
  /-- A call goes on. -/
  | step (step : Step s s')
  /-- Something else happens. -/
  | other (part : s'.part p = s.part p) (size : s'.size = s.size)
      (underway : s'.underway = s.underway) (told : s'.told = s.told)

/-- A part is a backoff with the given bounds. -/
structure BacksOff (lo hi : UInt32) (p : ι × Nat) (s : ManagerPool ι) : Prop where
  /-- Until it is dropped, it is what a backoff of its own is that was told the same calls. -/
  part : s.part p = Backoff.part lo hi (s.told p)
  /-- Until it is dropped, no call that comes to it has to wait. -/
  proceeds : ∀ c, .drop ∉ s.told p → s.next p.1 c = some p.2 → (s.step p.1 c).isSome
  /-- Between two calls all parts of the manager were told the same. -/
  alike : s.underway p.1 = none → ∀ k < s.size p.1, s.told (p.1, k) = s.told p

/-- The part and what it was told stay in step. -/
theorem part_of_step (h : s.step i c = some s')
    (part : s.part p = Backoff.part lo hi (s.told p)) :
    s'.part p = Backoff.part lo hi (s'.told p) := by
  obtain ⟨k, m, m', token', -, hm, htell, rfl⟩ := exists_of_step h
  by_cases hp : p = (i, k)
  · -- It is the backoff that the call comes to.
    subst hp
    simpa [after] using (Backoff.part_concat (part.symm.trans hm) htell).symm
  · simpa [after, hp] using part

/-- The parts of a manager were told the same calls, except for the one under way. -/
theorem told_of_step (h : s.step i c = some s') (j : ι)
    (told : ∃ calls, ∀ k < s.size j, s.told (j, k) = calls ++ s.begun j k) :
    ∃ calls, ∀ k < s'.size j, s'.told (j, k) = calls ++ s'.begun j k := by
  obtain ⟨calls, told⟩ := told
  obtain ⟨k, m, m', token', hk, -, -, rfl⟩ := exists_of_step h
  by_cases hj : j = i
  · subst hj
    -- Now the part that the call came to was told of it, too.
    have told (l : Nat) (hl : l < s.size j) : (s.after (j, k) c m' token').told (j, l) =
        calls ++ if l < k + 1 then [c] else [] := by
      have hbefore := (told l hl).trans (congrArg (calls ++ ·) (begun_of_next hk l))
      rcases Nat.lt_trichotomy l k with hlt | rfl | hgt
      · rw [if_pos (by omega)]
        simpa [after, hlt, hlt.ne] using hbefore
      · simpa [after] using hbefore
      · rw [if_neg (by omega)]
        simpa [after, hgt.ne', hgt.not_gt] using hbefore
    have begun (l : Nat) : (s.after (j, k) c m' token').begun j l =
        if k + 1 < s.size j then (if l < k + 1 then [c] else []) else [] := by
      by_cases hlast : k + 1 < s.size j <;> simp [ManagerPool.begun, after, hlast]
    by_cases hlast : k + 1 < s.size j
    · refine ⟨calls, fun l hl => ?_⟩
      rw [told l hl, begun, if_pos hlast]
    · -- With the last part the call is over.
      refine ⟨calls ++ [c], fun l hl => ?_⟩
      have hl : l < s.size j := hl
      rw [told l hl, begun, if_neg hlast, if_pos (by omega), List.append_nil]
  · refine ⟨calls, fun l hl => ?_⟩
    simpa [ManagerPool.begun, after, hj] using told l hl

theorem Tracks.step (T : s.Tracks m₀ lo hi p) (h : StepBeside p s s') :
    s'.Tracks m₀ lo hi p := by
  cases h with
  | step step =>
    obtain ⟨i, c, step⟩ := step
    refine ⟨part_of_step step T.part, ?_, told_of_step step p.1 T.told⟩
    obtain ⟨k, m, m', token', -, -, -, rfl⟩ := exists_of_step step
    exact T.size
  | other part size underway told =>
    refine ⟨by rw [part, told, T.part], size.trans T.size, ?_⟩
    rw [size, told]
    simpa only [ManagerPool.begun, underway] using T.told

theorem tracks_of_reachable (origin : (m₀ p.1).parts[p.2]? = some (.backoff (.new lo hi)))
    (h : Relation.ReflTransGen (StepBeside p) (init m₀) s) : s.Tracks m₀ lo hi p := by
  induction h with
  | refl => exact .init origin
  | tail _ hstep T => exact T.step hstep

/-- A backoff stays one, whatever happens beside it. -/
theorem backsOff_of_reachable (origin : (m₀ p.1).parts[p.2]? = some (.backoff (.new lo hi)))
    (h : Relation.ReflTransGen (StepBeside p) (init m₀) s) : s.BacksOff lo hi p := by
  obtain ⟨part, size, calls, told⟩ := tracks_of_reachable origin h
  refine ⟨part, fun c hdrop hnext => ?_, fun hidle k hk => ?_⟩
  · rw [Backoff.part_of_not_mem hdrop] at part
    rw [step_eq_some hnext part (Backoff.tell_manager ..)]
    rfl
  · have begun (j : Nat) : s.begun p.1 j = [] := by rw [ManagerPool.begun, hidle]
    have hp : p.2 < s.size p.1 := by
      rw [size]
      exact (List.getElem?_eq_some_iff.1 origin).1
    rw [told k hk, begun, told p.2 hp, begun]

/-- Calls that go on are steps beside any part. -/
theorem beside_of_steps (p : ι × Nat) (h : Relation.ReflTransGen Step s s') :
    Relation.ReflTransGen (StepBeside p) s s' :=
  Relation.ReflTransGen.mono (fun _ _ => .step) _ _ h

end ManagerPool

/-- Whatever the two bounds are, the window of a backoff keeps its law after any calls, and as a
part of a manager it waits as it would on its own, whatever happens to the other parts. -/
theorem Backoff.windowLaw (lo hi : UInt32) :
    (∀ calls, WindowLaw lo hi calls) ∧
      ∀ {ι : Type} [DecidableEq ι] (m₀ : ι → Manager) (p : ι × Nat) (s : ManagerPool ι),
        (m₀ p.1).parts[p.2]? = some (.backoff (.new lo hi)) →
        Relation.ReflTransGen (ManagerPool.StepBeside p) (.init m₀) s → s.BacksOff lo hi p :=
  ⟨windowLaw_after lo hi, fun _ _ _ origin h => ManagerPool.backsOff_of_reachable origin h⟩

namespace ManagerPool

/-- A backoff between other parts, with a largest window that doubling does not hit. -/
def innerBackoff (_ : Unit) : Manager :=
  .compose (.hourglass (.new 1))
    (.compose (.backoff (.new 0x60000000 0xFFFFFFFE)) .aggressive "inner") "outer"

/-- The hourglass is replaced and the token taken by somebody else. -/
def replaced (s : ManagerPool Unit) : ManagerPool Unit :=
  { s with token := true, part := Function.update s.part ((), 0) (some .aggressive) }

end ManagerPool

/-- After a commit, and with another manager in place of the hourglass, two aborts lead to the
largest window. -/
theorem Backoff.windowLaw_of_replaced_part :
    (ManagerPool.innerBackoff ()).parts[1]? = some (.backoff (.new 0x60000000 0xFFFFFFFE)) ∧
      ∃ s, Relation.ReflTransGen (ManagerPool.StepBeside ((), 1)) (.init ManagerPool.innerBackoff)
          s ∧
        s.told ((), 1) = [.abort, .commit, .begin, .abort, .abort] ∧
        s.BacksOff 0x60000000 0xFFFFFFFE ((), 1) ∧
        WindowLaw 0x60000000 0xFFFFFFFE [.abort, .commit, .begin, .abort, .abort] ∧
        (after 0x60000000 0xFFFFFFFE [.abort, .commit, .begin, .abort, .abort]).window =
          0xFFFFFFFE := by
  let told (calls : List ManagerCall) : List (Unit × ManagerCall) :=
    calls.flatMap fun c => List.replicate 3 ((), c)
  have facts : (((ManagerPool.init ManagerPool.innerBackoff).run (told [.abort, .commit])).bind
      fun s => s.replaced.run (told [.begin, .abort, .abort])).map (·.told ((), 1)) =
        some [.abort, .commit, .begin, .abort, .abort] := by
    decide +kernel
  obtain ⟨s, hrun, htold⟩ := Option.map_eq_some_iff.1 facts
  obtain ⟨s₁, hbefore, hafter⟩ := Option.bind_eq_some_iff.1 hrun
  have reach : Relation.ReflTransGen (ManagerPool.StepBeside ((), 1))
      (.init ManagerPool.innerBackoff) s := by
    have before := ManagerPool.beside_of_steps ((), 1) (ManagerPool.steps_of_run hbefore)
    have other : ManagerPool.StepBeside ((), 1) s₁ s₁.replaced :=
      .other (by simp [ManagerPool.replaced]) rfl rfl rfl
    exact (before.tail other).trans
      (ManagerPool.beside_of_steps ((), 1) (ManagerPool.steps_of_run hafter))
  have law := windowLaw 0x60000000 0xFFFFFFFE
  exact ⟨rfl, s, reach, htold, law.2 ManagerPool.innerBackoff ((), 1) s rfl reach, law.1 _,
    by decide⟩

/-- A policy that asks for the token after aborts has a backoff as its second part. -/
example (threshold lo hi : UInt32) :
    (Policy.hourglassBackoff threshold lo hi).build.parts[1]? = some (.backoff (.new lo hi)) :=
  rfl

end HybridTM
