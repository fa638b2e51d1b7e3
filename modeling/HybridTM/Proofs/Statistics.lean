import HybridTM.Proofs.Accounting

/-!
# What the statistics say

At any time the counters of the store, the tallies of the workers that were not dropped and what is
due together show what happened, as long as no body panics; every attempt that began has ended or is
under way; and every commit belongs to one call, which has returned or is about to
(`Chronicle.Accounted`). So between calls nothing is due, and the statistics are exact
(`Chronicle.Exact`): commits are calls that returned, each on the path of its final attempt, and
aborts are attempts that failed, each in the class of its error.
-/

set_option autoImplicit false

namespace HybridTM

open scoped UInt64.CommRing

/-! ## Counting kinds -/

instance : Fintype Path :=
  ⟨{.hardware, .software, .serial, .glock}, fun path => by cases path <;> decide⟩

instance : Fintype AbortClass :=
  ⟨{.validation, .conflict, .capacity, .explicit, .other}, fun cls => by cases cls <;> decide⟩

/-- The members of a list, counted kind by kind, are as many as the list is long. -/
theorem sum_ofNat_count {α : Type} [Fintype α] [DecidableEq α] (l : List α) :
    ∑ a, UInt64.ofNat (l.count a) = UInt64.ofNat l.length := by
  induction l with
  | nil => simp
  | cons x l ih =>
    have split (a : α) : UInt64.ofNat ((x :: l).count a) =
        UInt64.ofNat (l.count a) + if x = a then 1 else 0 := by
      rw [List.count_cons, UInt64.ofNat_add]
      by_cases h : x = a <;> simp [h]
    rw [Finset.sum_congr rfl fun a _ => split a, Finset.sum_add_distrib, ih,
      Finset.sum_ite_eq, if_pos (Finset.mem_univ x), List.length_cons, UInt64.ofNat_add]
    rfl

theorem tallied_commit (events : List Event) (path : Path) :
    tallied events (.commit path) = .ofNat ((events.filterMap Event.commit?).count path) := by
  rw [tallied, List.count_filterMap]
  congr 2
  funext e
  exact (beq_eq_decide _ _).symm

theorem tallied_abort (events : List Event) (cls : AbortClass) :
    tallied events (.abort cls) = .ofNat ((events.filterMap Event.failure?).count cls) := by
  rw [tallied, List.count_filterMap]
  congr 2
  funext e
  exact (beq_eq_decide _ _).symm

theorem count_toList {α : Type} [DecidableEq α] (o : Option α) (a : α) :
    o.toList.count a = if o = some a then 1 else 0 := by
  cases o with
  | none => rfl
  | some b => simp [List.count_singleton]

/-- When one worker changes, so does the number of workers of a kind by whether it is one. -/
theorem card_add_of_others {ι α : Type} [Fintype ι] [DecidableEq ι] [DecidableEq α]
    (f f' : ι → Option α) {i : ι} (h : ∀ j, j ≠ i → f' j = f j) (a : α) :
    (Finset.univ.filter fun j => f' j = some a).card + (f i).toList.count a =
      (Finset.univ.filter fun j => f j = some a).card + (f' i).toList.count a := by
  rw [Finset.card_filter, Finset.card_filter, count_toList, count_toList]
  exact sum_add_of_others (fun j => if f j = some a then 1 else 0)
    (fun j => if f' j = some a then 1 else 0) fun j hj => by rw [h j hj]

/-! ## Final attempts -/

/-- The path of the last of some attempts. -/
def lastPath? (trials : List Trial) : Option Path := trials.getLast?.map Trial.path

/-- The last of some attempts committed. -/
def Concluded (trials : List Trial) : Prop :=
  ∃ t, trials.getLast? = some t ∧ t.outcome = .committed

/-- The path of the final attempt of a call. -/
def Returned.path? (x : Returned) : Option Path := lastPath? x.trials

/-- A call that settles with a step has returned or is about to. -/
theorem Phase.bind_settled? {α : Type} (p : Phase) (q : Request) (f : Word → Option α) :
    ((p.settled? q).bind f).toList =
      ((p.returns? q).bind f).toList ++ (p.pending?.bind f).toList := by
  have key (o : Option Word) : (o.bind f).toList = o.toList.filterMap f := by
    cases o with
    | none => rfl
    | some value => cases h : f value <;> simp [h]
  rw [key, key, key, p.toList_settled? q, List.filterMap_append]

namespace Worker.Turn

variable {p p' : Phase} {q : Request} {s : Shared} {n : Notes}

/-- What commits with a turn belongs to a call that settles with it. -/
theorem Settles.calls (S : Settles p q p' n.writes) :
    (p.events q s p' n.writes).filterMap Event.commit? ++
        (p.pending?.bind fun _ => lastPath? n.trials).toList =
      ((p'.settled? q).bind fun _ =>
        lastPath? (n.after q p' (p.events q s p' n.writes)).trials).toList := by
  rw [Phase.filterMap_events rfl rfl]
  obtain ⟨hsettled, hcommits, hpending⟩ | ⟨hpending, hsettled, hq, path, hturns⟩ := S
  · rw [hsettled, hcommits, List.nil_append]
    cases h : p.pending? with
    | none => rfl
    | some value =>
      obtain ⟨hq, hturns⟩ := hpending (by rw [h]; nofun)
      rw [Notes.trials_after hq, hturns, List.filterMap_nil,
        List.append_nil]
  · obtain ⟨value, hvalue⟩ := Option.ne_none_iff_exists'.1 hsettled
    rw [hpending, hvalue, Notes.trials_after hq, hturns]
    simp [Event.commit?, Event.trial?, lastPath?]

/-- The final attempt of a call that settles committed. -/
theorem Settles.concluded (S : Settles p q p' n.writes)
    (before : p.pending? ≠ none → Concluded n.trials) (h : p'.settled? q ≠ none) :
    Concluded (n.after q p' (p.events q s p' n.writes)).trials := by
  obtain ⟨hsettled, -, hpending⟩ | ⟨-, -, hq, path, hturns⟩ := S
  · rw [hsettled] at h
    obtain ⟨hq, hturns⟩ := hpending h
    rw [Notes.trials_after hq, hturns, List.filterMap_nil,
      List.append_nil]
    exact before h
  · rw [Notes.trials_after hq, hturns]
    exact ⟨⟨path, n.writes, .committed⟩, List.getLast?_concat, rfl⟩

end Worker.Turn

/-! ## The statistics -/

namespace Chronicle

variable {ι : Type} [Fintype ι] [DecidableEq ι]

/-- What was added to a counter of the store. -/
def flushed (r : Runtime) (c : Chronicle ι) (k : Count) : UInt64 :=
  c.system.runtime.metrics.counter k.name - r.metrics.counter k.name

/-- What the workers that were not dropped hold in their tallies. -/
noncomputable def held (c : Chronicle ι) (k : Count) : UInt64 :=
  ∑ i with (c.phase i).isRetired = false, (c.system.worker i).context.tally.count k

/-- What the statistics show. -/
noncomputable def recorded (r : Runtime) (c : Chronicle ι) (k : Count) : UInt64 :=
  c.flushed r k + c.held k

/-- What all workers have yet to post. -/
noncomputable def due (c : Chronicle ι) (k : Count) : UInt64 := ∑ i, (c.phase i).due k

/-- The number of attempts under way on a path. -/
def underway (c : Chronicle ι) (path : Path) : Nat :=
  (Finset.univ.filter fun i => (c.phase i).attempt? = some path).card

/-- The path of the final attempt of a call that has committed and not yet returned. -/
def settling? (c : Chronicle ι) (i : ι) : Option Path :=
  (c.phase i).pending?.bind fun _ => lastPath? (c.notes i).trials

/-- The number of calls that have committed on a path and not yet returned. -/
def settling (c : Chronicle ι) (path : Path) : Nat :=
  (Finset.univ.filter fun i => c.settling? i = some path).card

/-- What the statistics show at any time. -/
structure Accounted (r : Runtime) (c : Chronicle ι) : Prop where
  /-- With what is due they show what happened. -/
  recorded : ∀ k, c.recorded r k + c.due k = tallied c.log k
  /-- Every attempt that began has ended or is under way. -/
  attempts : ∀ path, (c.log.filterMap Event.beginning?).count path =
    (c.log.filterMap Event.ending?).count path + c.underway path
  /-- Every commit is that of the final attempt of one call. -/
  commits : ∀ path, (c.log.filterMap Event.commit?).count path =
    (c.returned.filterMap Returned.path?).count path + c.settling path
  /-- The final attempt of every call that returned committed. -/
  concluded : ∀ x ∈ c.returned, Concluded x.trials

/-- What they show between calls. -/
structure Exact (r : Runtime) (c : Chronicle ι) : Prop where
  /-- The commits on each path are the calls that returned after a final attempt there. -/
  commits : ∀ path,
    c.recorded r (.commit path) = .ofNat ((c.returned.filterMap Returned.path?).count path)
  /-- Together they are all calls that returned. -/
  calls : ∑ path, c.recorded r (.commit path) = .ofNat c.returned.length
  /-- The aborts of each class are the attempts that failed with such an error. -/
  aborts : ∀ cls, c.recorded r (.abort cls) = .ofNat ((c.log.filterMap Event.failure?).count cls)
  /-- Together they are all attempts that failed. -/
  failures : ∑ cls, c.recorded r (.abort cls) = .ofNat (c.log.filterMap Event.failure?).length
  /-- An attempt that did not commit failed. -/
  attempts : (c.log.filterMap Event.beginning?).length =
    (c.log.filterMap Event.commit?).length + (c.log.filterMap Event.failure?).length
  /-- Read-only commits are optimistic ones without a write call. -/
  readOnly : c.recorded r .readOnly = .ofNat (c.log.countP Event.readsOnly)
  /-- Attempts to take the clock are its compare-and-swaps. -/
  clockSwaps : c.recorded r .clockSwap = .ofNat (c.log.countP Event.swapsClock)
  /-- Acquisitions of the global lock are the swaps that took it. -/
  lockSwaps : c.recorded r .lockSwap = .ofNat (c.log.countP Event.takesLock)

variable {r : Runtime} {c c' : Chronicle ι}

omit [Fintype ι] in
theorem emptied_of_reachable (h : Reachable r c) (i : ι) : (c.system.worker i).Emptied := by
  induction h with
  | refl => exact Worker.emptied_of_alive rfl
  | @tail c c' _ hstep ih =>
    cases hstep with
    | act j q spares acts =>
      by_cases hi : i = j
      · subst hi
        exact (posts_of_act acts).emptied ih
      · rw [((turn_of_act acts).2.2.2 i hi).1]
        exact ih
    | faults f => exact ih

omit [Fintype ι] in
/-- Whoever panics leaves a trace in the log. -/
theorem Calm.of_act {i : ι} {q : Request} {reply : Reply} (calm : c'.Calm)
    (h : c.act i q = some (reply, c')) : c.Calm ∧ q ≠ .panic := by
  obtain ⟨T, -, hlog, -⟩ := turn_of_act h
  rw [Calm, hlog] at calm
  refine ⟨fun e he => calm e (List.mem_append_left _ he), ?_⟩
  rintro rfl
  obtain ⟨-, path, hevents⟩ := T.panics (c.notes i).writes
  rw [events, hevents] at calm
  cases calm _ (List.mem_append_right _ (List.mem_singleton_self _))

/-- Everyone that is counted in the tallies of all workers was not dropped. -/
theorem held_eq_sum (h : Reachable r c) (k : Count) :
    c.held k = ∑ i, (c.system.worker i).context.tally.count k := by
  refine Finset.sum_filter_of_ne fun i _ hne => ?_
  cases halive : (c.phase i).isRetired with
  | false => rfl
  | true => exact absurd (emptied_of_reachable h i halive k) hne

/-- The statistics with what is due show what happened. -/
theorem recorded_add_due (h : Reachable r c) (calm : c.Calm) (k : Count) :
    c.recorded r k + c.due k = tallied c.log k := by
  suffices key : c.flushed r k + ∑ i, (c.system.worker i).context.tally.count k + c.due k =
      tallied c.log k by
    rw [recorded, held_eq_sum h, key]
  induction h with
  | refl =>
    have hflushed : (start r : Chronicle ι).flushed r k = 0 := sub_self _
    have htally : ∑ i, ((start r : Chronicle ι).system.worker i).context.tally.count k = 0 :=
      Finset.sum_eq_zero fun i _ => Tally.count_zero k
    have hdue : (start r : Chronicle ι).due k = 0 := Finset.sum_eq_zero fun i _ => rfl
    rw [hflushed, htally, hdue, add_zero, add_zero]
    exact (tallied_nil k).symm
  | @tail c c' hc hstep ih =>
    cases hstep with
    | act i q spares acts =>
      obtain ⟨calm, hq⟩ := calm.of_act acts
      obtain ⟨T, -, hlog, hothers⟩ := turn_of_act acts
      have posted := (posts_of_act acts).counts k
      have happened : (c.phase i).posted q c.shared k + (c'.phase i).due k =
          (c.phase i).due k + tallied (c.events i q (c'.phase i)) k :=
        T.accounted (buffers_of_reachable hc i) hq k
      have tallies := sum_add_of_others (fun j => (c.system.worker j).context.tally.count k)
        (fun j => (c'.system.worker j).context.tally.count k)
        fun j (hj : j ≠ i) => by rw [(hothers j hj).1]
      have dues := sum_add_of_others (fun j => (c.phase j).due k) (fun j => (c'.phase j).due k)
        fun j (hj : j ≠ i) => by rw [phase, (hothers j hj).1]; rfl
      rw [hlog, tallied_append, ← ih calm]
      simp only [flushed, due]
      linear_combination tallies + dues + posted + happened
    | faults f => exact ih calm

/-- Every attempt that began has ended or is under way. -/
theorem count_beginning (h : Reachable r c) (path : Path) :
    (c.log.filterMap Event.beginning?).count path =
      (c.log.filterMap Event.ending?).count path + c.underway path := by
  induction h with
  | refl => simp [start, underway, phase, System.start, Worker.new, Phase.attempt?]
  | @tail c c' hc hstep ih =>
    cases hstep with
    | act i q spares acts =>
      obtain ⟨T, -, hlog, hothers⟩ := turn_of_act acts
      have happened : (c.events i q (c'.phase i)).filterMap Event.beginning? ++
          (c.phase i).attempt?.toList = (c.events i q (c'.phase i)).filterMap Event.ending? ++
            (c'.phase i).attempt?.toList := T.attempts
      have counted := card_add_of_others (fun j => (c.phase j).attempt?)
        (fun j => (c'.phase j).attempt?)
        (fun j (hj : j ≠ i) => by rw [phase, (hothers j hj).1]; rfl) path
      replace happened := congrArg (List.count path) happened
      simp only [List.count_append] at happened
      rw [hlog, List.filterMap_append, List.filterMap_append, List.count_append, List.count_append]
      simp only [underway] at *
      omega
    | faults f => exact ih

omit [Fintype ι] in
/-- The final attempts of calls that returned or are about to committed. -/
theorem concluded_of_reachable (h : Reachable r c) :
    (∀ i, (c.phase i).pending? ≠ none → Concluded (c.notes i).trials) ∧
      ∀ x ∈ c.returned, Concluded x.trials := by
  induction h with
  | refl => exact ⟨fun i h => absurd rfl h, nofun⟩
  | @tail c c' hc hstep ih =>
    cases hstep with
    | act i q spares acts =>
      obtain ⟨T, hnotes, -, hothers⟩ := turn_of_act acts
      have settled : (c'.phase i).settled? q ≠ none →
          Concluded (c.noted i q (c'.phase i)).trials := T.settles.concluded (ih.1 i)
      refine ⟨fun j hpending => ?_, fun x hx => ?_⟩
      · by_cases hj : j = i
        · subst hj
          rw [hnotes]
          refine settled fun hnone => hpending ?_
          exact (Option.or_eq_none_iff.1 hnone).2
        · obtain ⟨hworker, hsame⟩ := hothers j hj
          rw [hsame]
          refine ih.1 j ?_
          rwa [phase, hworker] at hpending
      · rw [returned_of_act acts] at hx
        rcases List.mem_append.1 hx with hx | hx
        · exact ih.2 x hx
        · obtain ⟨value, hvalue, rfl⟩ := Option.map_eq_some_iff.1 (Option.mem_toList.1 hx)
          refine settled fun hnone => ?_
          rw [(Option.or_eq_none_iff.1 hnone).1] at hvalue
          cases hvalue
    | faults f => exact ih

/-- Every commit belongs to one call. -/
theorem count_commits (h : Reachable r c) (path : Path) :
    (c.log.filterMap Event.commit?).count path =
      (c.returned.filterMap Returned.path?).count path + c.settling path := by
  induction h with
  | refl => simp [start, settling, settling?, phase, System.start, Worker.new, Phase.pending?]
  | @tail c c' hc hstep ih =>
    cases hstep with
    | act i q spares acts =>
      obtain ⟨T, hnotes, hlog, hothers⟩ := turn_of_act acts
      have happened : (c.events i q (c'.phase i)).filterMap Event.commit? ++
          (c.settling? i).toList = (((c'.phase i).settled? q).bind fun _ =>
            lastPath? (c.noted i q (c'.phase i)).trials).toList := T.settles.calls
      -- What settles has returned or is about to.
      have hsettling : ((c'.phase i).pending?.bind fun _ =>
          lastPath? (c.noted i q (c'.phase i)).trials) = c'.settling? i := by
        rw [← hnotes, settling?]
      have hreturned : c'.returned.filterMap Returned.path? =
          c.returned.filterMap Returned.path? ++ (((c'.phase i).returns? q).bind fun _ =>
            lastPath? (c.noted i q (c'.phase i)).trials).toList := by
        rw [returned_of_act acts, List.filterMap_append]
        cases (c'.phase i).returns? q with
        | none => rfl
        | some value =>
          cases hpath : lastPath? (c.noted i q (c'.phase i)).trials <;>
            simp [Returned.path?, hpath]
      rw [Phase.bind_settled?, hsettling] at happened
      have counted := card_add_of_others c.settling? c'.settling?
        (fun j (hj : j ≠ i) => by simp only [settling?, phase, hothers j hj]) path
      replace happened := congrArg (List.count path) happened
      simp only [List.count_append] at happened
      rw [hlog, hreturned, List.filterMap_append, List.count_append, List.count_append]
      simp only [settling] at *
      omega
    | faults f => exact ih

omit [Fintype ι] [DecidableEq ι] in
/-- Every attempt that ended committed or failed. -/
theorem Calm.length_ending (calm : c.Calm) : (c.log.filterMap Event.ending?).length =
    (c.log.filterMap Event.commit?).length + (c.log.filterMap Event.failure?).length := by
  unfold Calm at calm
  generalize c.log = log at calm
  induction log with
  | nil => rfl
  | cons e log ih =>
    have rest := ih fun x hx => calm x (List.mem_cons_of_mem _ hx)
    rcases e with path | ⟨path, writes, _ | err | _⟩ | _ | _
    · exact rest
    · simp only [List.filterMap_cons, Event.ending?, Event.commit?, Event.failure?,
        List.length_cons, rest]
      omega
    · simp only [List.filterMap_cons, Event.ending?, Event.commit?, Event.failure?,
        List.length_cons, rest]
      omega
    · cases calm _ List.mem_cons_self
    · exact rest
    · exact rest

theorem accounted (h : Reachable r c) (calm : c.Calm) : c.Accounted r :=
  ⟨recorded_add_due h calm, count_beginning h, count_commits h, (concluded_of_reachable h).2⟩

omit [DecidableEq ι] in
/-- Between calls every attempt that began has ended. -/
theorem Accounted.count_beginning_of_quiescent (A : c.Accounted r) (quiescent : c.Quiescent)
    (path : Path) : (c.log.filterMap Event.beginning?).count path =
      (c.log.filterMap Event.ending?).count path := by
  have hunderway : c.underway path = 0 := by
    rw [underway, Finset.card_eq_zero, Finset.filter_eq_empty_iff]
    intro i _
    obtain ⟨last, hlast⟩ := Phase.isResting_iff.1 (quiescent i)
    rw [hlast]
    exact nofun
  rw [A.attempts, hunderway, Nat.add_zero]

omit [DecidableEq ι] in
/-- Between calls nothing is due. -/
theorem Accounted.exact (A : c.Accounted r) (calm : c.Calm) (quiescent : c.Quiescent) :
    c.Exact r := by
  have settled (k : Count) : c.recorded r k = tallied c.log k := by
    have hdue : c.due k = 0 := Finset.sum_eq_zero fun i _ => by
      obtain ⟨last, hlast⟩ := Phase.isResting_iff.1 (quiescent i)
      rw [hlast]
      rfl
    rw [← A.recorded k, hdue, add_zero]
  have ended := A.count_beginning_of_quiescent quiescent
  have returned (path : Path) : (c.log.filterMap Event.commit?).count path =
      (c.returned.filterMap Returned.path?).count path := by
    have hsettling : c.settling path = 0 := by
      rw [settling, Finset.card_eq_zero, Finset.filter_eq_empty_iff]
      intro i _
      obtain ⟨last, hlast⟩ := Phase.isResting_iff.1 (quiescent i)
      rw [settling?, hlast]
      exact nofun
    rw [A.commits, hsettling, Nat.add_zero]
  have lengths : (c.returned.filterMap Returned.path?).length = c.returned.length := by
    refine List.filterMap_length_eq_length.2 fun x hx => ?_
    obtain ⟨t, ht, -⟩ := A.concluded x hx
    simp [Returned.path?, lastPath?, ht]
  refine ⟨fun path => ?_, ?_, fun cls => ?_, ?_, ?_, settled _, settled _, settled _⟩
  · rw [settled, tallied_commit, returned]
  · rw [← lengths, ← sum_ofNat_count]
    exact Finset.sum_congr rfl fun path _ => by rw [settled, tallied_commit, returned]
  · rw [settled, tallied_abort]
  · rw [← sum_ofNat_count]
    exact Finset.sum_congr rfl fun cls _ => by rw [settled, tallied_abort]
  · rw [(List.perm_iff_count.2 ended).length_eq, calm.length_ending]

/-- Every call and every attempt is counted exactly once: at any time the statistics with what is
due show what happened, and between calls they are exact. -/
theorem exact_of_reachable (h : Reachable r c) (calm : c.Calm) :
    c.Accounted r ∧ (c.Quiescent → c.Exact r) :=
  ⟨accounted h calm, (accounted h calm).exact calm⟩

/-- Two workers make calls that end on all four paths, after failures of three classes. -/
theorem exact_of_mixed_paths :
    ∃ (r : Runtime) (c : Chronicle Bool), Reachable r c ∧ c.Calm ∧ c.Quiescent ∧
      c.returned.filterMap Returned.path? = [.software, .software, .serial, .hardware, .glock] ∧
      c.log.filterMap Event.failure? = [.other, .validation, .explicit] ∧
      c.Accounted r ∧ c.Exact r := by
  let backend : Backend :=
    .emulated { Emulator.withCapacity 8 with faults := Faults.none.failNext .unsupported 1 }
  let a : Addr := Runtime.wordAddr 0
  -- The first region aborts, and a reader commits in an epoch of its own.
  let epoch : List (Bool × Request) := [(false, .call), (false, .advance), (false, .advance),
    (false, .account 1), (false, .advance), (false, .advance), (false, .advance),
    (false, .advance), (false, .advance), (false, .advance), (false, .advance),
    (false, .read a fullMask), (false, .endBody (.ok 1)), (false, .advance), (false, .account 1)]
  -- The other worker joins the epoch.
  let joined : List (Bool × Request) := [(true, .call), (true, .advance), (true, .advance),
    (true, .advance), (true, .write a 2 fullMask), (true, .endBody (.ok 2)), (true, .advance),
    (true, .flush), (true, .advance), (true, .advance)]
  -- A failed attempt is followed by a serial one, and the epoch ends.
  let serial : List (Bool × Request) := [(false, .call), (false, .advance), (false, .advance),
    (false, .endBody (.error .validationFailure)), (false, .advance), (false, .advance),
    (false, .endBody (.ok 3)), (false, .advance), (false, .account 1), (false, .retire),
    (false, .advance), (false, .advance), (false, .advance)]
  -- One region commits, and the next one aborts itself.
  let hardware : List (Bool × Request) := [(true, .call), (true, .advance), (true, .advance),
    (true, .advance), (true, .endBody (.ok 4)), (true, .advance), (true, .advance),
    (true, .account 1), (true, .call), (true, .advance), (true, .advance), (true, .advance),
    (true, .abort 7), (true, .endBody (.ok 5)), (true, .advance), (true, .account 1)]
  let glock : List (Bool × Request) := [(true, .advance), (true, .advance), (true, .advance),
    (true, .advance), (true, .advance), (true, .endBody (.ok 5)), (true, .advance),
    (true, .advance), (true, .advance)]
  have facts : ((Runtime.create backend { maxRetries := 1, software := ⟨1, .aggressive⟩ } [1]
      .empty).toOption.bind fun r =>
        ((start r : Chronicle Bool).run (epoch ++ joined ++ serial ++ hardware ++ glock)).map
          fun c => (c.log.all (·.panic?.isNone),
            (c.phase false).isResting && (c.phase true).isResting,
            c.returned.filterMap Returned.path?, c.log.filterMap Event.failure?)) =
      some (true, true, [.software, .software, .serial, .hardware, .glock],
        [.other, .validation, .explicit]) := by
    decide +kernel
  obtain ⟨r, c, -, hreach, hc⟩ := reachable_of_run
    (by simp [epoch, joined, serial, hardware, glock, Request.SparesMode, a, Runtime.wordAddr,
      HybridTM.wordAddr, Runtime.modeAddr]) facts
  simp only [Prod.mk.injEq, Bool.and_eq_true] at hc
  obtain ⟨hcalm, ⟨hfalse, htrue⟩, hreturned, hfailed⟩ := hc
  have calm : c.Calm := fun e he => by simpa using List.all_eq_true.1 hcalm e he
  have quiescent : c.Quiescent := fun i => by cases i <;> assumption
  obtain ⟨A, hexact⟩ := exact_of_reachable hreach calm
  exact ⟨r, c, hreach, calm, quiescent, hreturned, hfailed, A, hexact quiescent⟩

end Chronicle

end HybridTM
