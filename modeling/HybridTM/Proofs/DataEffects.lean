import HybridTM.Proofs.Invocations

/-!
# What a turn does to the words of data

Besides the mode word a turn of a worker can do six things (`Worker.Turn.DataEffect`): nothing, or
take the clock, or give it back without a commit; or it commits without a write, or publishes what
its body did, or puts this in the place of the last memory without moving the clock. Every turn does
one of them and goes on to carry the invocation of its body (`Worker.Turn.data_own`,
`Worker.Turn.data_body`).

Whichever it is, memory and clock show the new history (`DataEffect.shows`), the others carry their
invocations as before (`DataEffect.others`), and a serial order of the calls that passes through all
memories has a place for the call (`DataEffect.passes`).
-/

set_option autoImplicit false

namespace HybridTM

/-! ## Effects -/

/-- A software call beside which others may run. -/
def Phase.IsShared (p : Phase) : Prop :=
  ∃ place call, p = .software place call ∧ place ≠ .lock

/-- The value of a call that has committed once a step leads to a phase, returned or not. -/
def Phase.settled? (p : Phase) (q : Request) : Option Word := (p.returns? q).or p.pending?

theorem Phase.toList_settled? (p : Phase) (q : Request) :
    (p.settled? q).toList = (p.returns? q).toList ++ p.pending?.toList := by
  unfold settled?
  cases hreturns : p.returns? q with
  | none => rfl
  | some value =>
    -- Only a worker at rest has returned.
    have hpending : p.pending? = none := by
      cases p with
      | resting last => rfl
      | _ => cases q <;> cases hreturns
    rw [hpending]
    rfl

namespace Worker.Turn

/-- A turn is made in hardware mode or under the global lock. -/
def Alone (s : Shared) (p : Phase) : Prop := s.mode.mode = .hw ∨ ∃ call, p = .software .lock call

/-- What a turn of a worker with an invocation of its body does to memory, clock and history, and
whether its call commits. -/
inductive DataEffect (h : History) (held : Bool) (s : Shared) (p : Phase) (I : Invocation)
    (q : Request) (p' : Phase) : Shared → History → Bool → Prop
  /-- The words of data and the clock stay. -/
  | still {s' : Shared} (data : Memory.SameOn Runtime.IsData s'.memory s.memory)
      (clock : s'.clock = s.clock) (settled : p'.settled? q = p.pending?) :
      DataEffect h held s p I q p' s' h held
  /-- The clock is taken. -/
  | take (place : p.IsShared) (free : held = false) (settled : p'.settled? q = p.pending?) :
      DataEffect h held s p I q p' { s with clock := .of h.count true } h true
  /-- It is given back without a commit, and the same memory is published again. -/
  | release (place : p.IsShared) (serial : p.role? = some .serial)
      (settled : p'.settled? q = p.pending?) :
      DataEffect h held s p I q p' { s with clock := .of (h.count + 1) false } (h.publish s.memory)
        false
  /-- A call commits without a write at one of the memories. -/
  | commitAt {k : Nat} {value : Word} (le : k ≤ h.count)
      (explained : I.Explained value (h.memory k)) (readsOnly : ReadsOnly I.trace)
      (pending : p.pending? = none) (settled : p'.settled? q = some value) :
      DataEffect h held s p I q p' s h held
  /-- A call commits and publishes. -/
  | publish {value : Word} (place : p.IsShared) (free : held = false ∨ p.role? = some .serial)
      (explained : I.Explained value h.last) (pending : p.pending? = none)
      (settled : p'.settled? q = some value) :
      DataEffect h held s p I q p' ⟨HybridTM.after I.trace s.memory, .of (h.count + 1) false⟩
        (h.publish (HybridTM.after I.trace s.memory)) false
  /-- A call commits and leaves the clock alone. -/
  | amend {value : Word} (alone : Alone s p) (explained : I.Explained value h.last)
      (pending : p.pending? = none) (settled : p'.settled? q = some value) :
      DataEffect h held s p I q p' { s with memory := HybridTM.after I.trace s.memory }
        (h.amend (HybridTM.after I.trace s.memory)) held

/-- A turn has an effect, and its worker goes on to carry an invocation. -/
structure Carried (h : History) (held : Bool) (s : Shared) (p : Phase) (I : Invocation)
    (q : Request) (p' : Phase) (s' : Shared) (I' : Invocation) (h' : History) (held' : Bool) :
    Prop where
  /-- The effect. -/
  effect : DataEffect h held s p I q p' s' h' held'
  /-- The worker carries the invocation. -/
  carries : p'.Carries h' s'.clock I'
  /-- It became serial only while the clock was free. -/
  serial : p'.role? = some .serial → p.role? = some .serial ∨ held = false
  /-- After its commit the invocation stays. -/
  stays : p'.pending? = none ∨ I' = I

/-! ## Consequences -/

namespace DataEffect

variable {h h' : History} {held held' : Bool} {s s' : Shared} {p p' : Phase} {I : Invocation}
  {q : Request}

/-- Memory and clock show the new history, if the clock does not come round. -/
theorem shows (E : DataEffect h held s p I q p' s' h' held') (S : s.Shows Runtime.IsData h held)
    (room : s.clock.now ≤ s'.clock.now) : s'.Shows Runtime.IsData h' held' := by
  have next (hnow : s.clock.now ≤ (Clock.of (h.count + 1) false).now) :
      h.count + 1 < clockLimit := Clock.succ_lt_clockLimit S.room (S.clock ▸ hnow)
  cases E with
  | still data clock settled => exact ⟨clock.trans S.clock, data.trans S.memory, S.room⟩
  | take place free settled => exact ⟨rfl, S.memory, S.room⟩
  | release place serial settled =>
    refine ⟨rfl, ?_, next room⟩
    rw [History.last_publish]
    exact .refl _ s.memory
  | commitAt le explained readsOnly pending settled => exact S
  | publish place free explained pending settled =>
    refine ⟨rfl, ?_, next room⟩
    rw [History.last_publish]
    exact .refl _ _
  | amend alone explained pending settled =>
    refine ⟨S.clock, ?_, S.room⟩
    rw [History.last_amend]
    exact .refl _ _

/-- The other workers carry their invocations as before: beside a shared call none is exclusive,
while the clock is taken or moved none is serial, and in hardware mode or under the lock none runs
in software. -/
theorem others (E : DataEffect h held s p I q p' s' h' held') {pᵢ : Phase} {Iᵢ : Invocation}
    (C : pᵢ.Carries h s.clock Iᵢ) (exclusive : p.IsShared → pᵢ.role? ≠ some .exclusive)
    (serial : held = false ∨ p.role? = some .serial → pᵢ.role? ≠ some .serial)
    (alone : Alone s p → pᵢ.role? = none) : pᵢ.Carries h' s'.clock Iᵢ := by
  -- Beside a shared call that takes or moves the clock all are optimistic.
  have optimistic (place : p.IsShared) (free : held = false ∨ p.role? = some .serial)
      (role : Role) (hrole : pᵢ.role? = some role) : role.isIrrevocable = false := by
    cases role with
    | readOnly => rfl
    | readWrite => rfl
    | serial => exact absurd hrole (serial free)
    | exclusive => exact absurd hrole (exclusive place)
  cases E with
  | still data clock settled => rwa [clock]
  | take place free settled =>
    exact C.of_others (optimistic place (Or.inl free)) (Nat.le_refl _) (fun _ _ => rfl) _
  | release place hserial settled =>
    exact C.of_others (optimistic place (Or.inr hserial)) (Nat.le_succ _)
      (fun k hk => History.memory_publish_of_le hk _) _
  | commitAt le explained readsOnly pending settled => exact C
  | publish place free explained pending settled =>
    exact C.of_others (optimistic place free) (Nat.le_succ _)
      (fun k hk => History.memory_publish_of_le hk _) _
  | amend halone explained pending settled => exact C.of_quiet (alone halone) _ _

/-- No call commits and the same serial order passes through the new history; or the call commits
and has a place in the order. -/
theorem passes {ι : Type} {m₀ m : Memory} {order : List (Completed ι)}
    (E : DataEffect h held s p I q p' s' h' held') (S : s.Shows Runtime.IsData h held)
    (P : Passes m₀ order m h) (i : ι) :
    (p'.settled? q = p.pending? ∧ ∃ m', Passes m₀ order m' h') ∨
      ∃ value order' m', p.pending? = none ∧ p'.settled? q = some value ∧
        order'.Perm (I.completed i value :: order) ∧ Passes m₀ order' m' h' ∧
        (I.path ≠ .software → (I.completed i value).Unfailing) := by
  have ends : Memory.SameOn Runtime.IsData m s.memory := P.ends.trans S.memory.symm
  cases E with
  | still data clock settled => exact Or.inl ⟨settled, m, P⟩
  | take place free settled => exact Or.inl ⟨settled, m, P⟩
  | release place serial settled => exact Or.inl ⟨settled, m, P.republish ends⟩
  | @commitAt k value le explained readsOnly pending settled =>
    have replay : ∀ m₁, Memory.SameOn Runtime.IsData m₁ (h.memory k) →
        (I.completed i value).replay m₁ = (some value, m₁) := by
      intro m₁ hm₁
      rw [explained.replay hm₁, after_of_readsOnly readsOnly]
    obtain ⟨order', hperm, P'⟩ := P.insert le replay
    exact Or.inr ⟨value, order', m, pending, settled, hperm, P', explained.unfailing⟩
  | @publish value place free explained pending settled =>
    have hdata := sameOn_after I.trace ends
    refine Or.inr ⟨value, order ++ [I.completed i value], _, pending, settled, ?_,
      P.publish (explained.replay P.ends i) hdata, explained.unfailing⟩
    exact List.perm_append_singleton _ _
  | @amend value alone explained pending settled =>
    have hdata := sameOn_after I.trace ends
    refine Or.inr ⟨value, order ++ [I.completed i value], _, pending, settled, ?_,
      P.amend (explained.replay P.ends i) hdata, explained.unfailing⟩
    exact List.perm_append_singleton _ _

end DataEffect

end Worker.Turn

end HybridTM
