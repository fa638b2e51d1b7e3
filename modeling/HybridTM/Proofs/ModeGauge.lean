import HybridTM.Proofs.SwitchBooks

/-!
# The mode on the gauge

An errand that has changed the mode shows the new one on the gauge in a step of its own, and others
can change the mode in between. Who turned the runtime to software or took the global lock keeps the
mode until it is shown, for it is counted in the word or holds the lock. But who returned the
runtime to hardware has no part in it any more, and may be overtaken. So once nobody is between the
two steps the gauge shows the mode or it shows hardware (`System.gauge_of_reachable`), and there is
a run after which it shows hardware in software mode (`System.gauge_stale`).
-/

set_option autoImplicit false

namespace HybridTM

/-- What the gauge shows for a mode. -/
def Mode.gauge (mode : Mode) : Int64 := .ofNat mode.bits

/-- The mode gauge. -/
def Runtime.gauge? (r : Runtime) : Option Int64 := r.metrics.gauge? MetricName.modeCurrent

/-- The report names the mode that the gauge shows. -/
theorem Runtime.current_of_gauge {r : Runtime} {mode : Mode} (h : r.gauge? = some mode.gauge) :
    r.report.mode.current = mode.name := by
  have hcurrent : r.report.mode.current = MetricsSnapshot.modeLabel r.gauge? := rfl
  rw [hcurrent, h]
  cases mode <;> rfl

/-- A new runtime shows hardware. -/
theorem Runtime.Created.gauge {r : Runtime} (created : r.Created) :
    r.gauge? = some Mode.hw.gauge := by
  obtain ⟨backend, config, data, metrics, h⟩ := created
  have shown (r : Runtime) (mode : Mode) : (r.showMode mode).gauge? = some mode.gauge := by
    show (r.metrics.setGauge _ _).gauge? _ = _
    rw [Metrics.gauge?_setGauge, if_pos rfl]
    rfl
  obtain ⟨-, rfl⟩ := create_eq_ok h
  exact shown _ .hw

namespace System

variable {ι : Type} {s s' : System ι} {i : ι} {q : Request} {reply : Reply} {r : Runtime}

/-- What the gauge shows. -/
inductive Gauged (s : System ι) : Prop
  /-- The mode. -/
  | current (gauge : s.runtime.gauge? = some s.runtime.mode.mode.gauge)
  /-- Hardware. -/
  | hardware (gauge : s.runtime.gauge? = some Mode.hw.gauge)
  /-- Something else, while somebody is about to show the mode. -/
  | behind (i : ι) (about : (s.worker i).phase.unshownMode? = some s.runtime.mode.mode)

variable [Fintype ι]

/-- A mode that is yet to be shown is hardware, or it is still the mode. -/
theorem mode_of_unshown (V : s.Valid) (A : (s.worker i).phase.Applied) {mode : Mode}
    (h : (s.worker i).phase.unshownMode? = some mode) :
    mode = .hw ∨ mode = s.runtime.mode.mode := by
  obtain ⟨⟨errand, seen, next⟩, hshown, rfl⟩ := Option.map_eq_some_iff.1 h
  obtain ⟨change, changed⟩ := A errand seen next hshown
  have stake : s.stake i = errand.after := by
    rw [System.stake, Worker.stake, Phase.unshown?_eq_some_iff.1 hshown]
    rfl
  have route := Errand.route change changed
  show next.mode = .hw ∨ next.mode = s.runtime.mode.mode
  generalize seen.mode = before at route
  generalize next.mode = after at route ⊢
  cases route with
  | flip failures => exact Or.inr (V.balanced.epoch i stake).symm
  | lock failures =>
    rw [V.balanced.eq_locked stake]
    exact Or.inr rfl
  | unlock ending => exact Or.inl rfl
  | leave ending other => exact Or.inl rfl
  | endEpoch ending other => exact Or.inl rfl

variable [DecidableEq ι]

/-- The gauge after a step shows the mode that was to be shown, or what it showed. -/
theorem gauge_of_act (V : s.Valid) (A : (s.worker i).phase.Applied)
    (h : s.act i q = some (reply, s')) :
    s'.runtime.gauge? = (((s.worker i).phase.shows q).map Mode.gauge).or s.runtime.gauge? :=
  (Worker.credits_of_act (V.sound i) A (worker_of_act h)).gauge

theorem Gauged.act (G : s.Gauged) (V : s.Valid) (A : (s.worker i).phase.Applied)
    (h : s.act i q = some (reply, s')) : s'.Gauged := by
  have others := (turn_of_act h).2
  have hgauge := gauge_of_act V A h
  have hmode : s'.runtime.mode.mode = s'.runtime.engine.shared.mode.mode := rfl
  -- As long as mode and gauge stay, it is still the same that somebody is about to show.
  have stays (mode : s'.runtime.mode.mode = s.runtime.mode.mode)
      (gauge : s'.runtime.gauge? = s.runtime.gauge?)
      (own : (s.worker i).phase.unshownMode? = none ∨ (s'.worker i).phase = (s.worker i).phase) :
      s'.Gauged := by
    cases G with
    | current shown => exact .current (by rw [gauge, mode, shown])
    | hardware shown => exact .hardware (gauge.trans shown)
    | behind j about =>
      refine .behind j ?_
      by_cases hj : j = i
      · subst hj
        rcases own with own | own
        · rw [own] at about
          cases about
        · rw [own, mode, about]
      · rw [others j hj, mode, about]
  have P := passage_of_act V h
  generalize hs' : s'.runtime.engine.shared = x' at P hmode
  generalize hp' : (s'.worker i).phase = p' at P stays
  cases P with
  | kept mode before after =>
    have unshown : (s.worker i).phase.unshownMode? = none := by
      rw [Phase.unshownMode?, before]
      rfl
    refine stays (hmode.trans mode) ?_ (Or.inl unshown)
    rw [hgauge]
    cases q with
    | advance => rw [Phase.shows, unshown]; rfl
    | _ => rfl
  | flushed request =>
    refine stays hmode ?_ (Or.inr rfl)
    rw [hgauge, request]
    rfl
  | @shown errand seen next p' phase request after =>
    have about : (s.worker i).phase.unshownMode? = some next.mode := by
      rw [phase]
      rfl
    rw [request, Phase.shows, about] at hgauge
    rcases mode_of_unshown V A about with mode | mode
    · exact .hardware (by rw [hgauge, mode]; rfl)
    · exact .current (by rw [hgauge, mode, hmode]; rfl)
  | @swapped errand next phase request change shared mode =>
    refine .behind i ?_
    rw [hp', hmode, shared]
    rfl

/-- The gauge shows the mode or hardware, or somebody is about to show the mode. -/
theorem gauged_of_reachable (created : r.Created) (h : Reachable r s) : s.Gauged := by
  induction h with
  | refl => exact .hardware created.gauge
  | @tail s s' hs hstep G =>
    cases hstep with
    | act i q spares acts =>
      exact G.act (valid_of_reachable created hs) (applied_of_reachable created hs i) acts
    | faults f =>
      cases G with
      | current gauge => exact .current gauge
      | hardware gauge => exact .hardware gauge
      | behind i about => exact .behind i about

/-- While nobody is between a change of the mode and showing it, the gauge shows the mode, or it
shows hardware. -/
theorem gauge_of_reachable (created : r.Created) (h : Reachable r s)
    (settled : ∀ i, (s.worker i).phase.unshown? = none) :
    s.runtime.gauge? = some s.runtime.mode.mode.gauge ∨ s.runtime.gauge? = some Mode.hw.gauge := by
  cases gauged_of_reachable created h with
  | current gauge => exact Or.inl gauge
  | hardware gauge => exact Or.inr gauge
  | behind i about =>
    rw [Phase.unshownMode?, settled i] at about
    cases about

/-- A worker ends its epoch and returns the runtime to hardware. Before it shows that, another one
turns the runtime to software, and shows it. -/
theorem gauge_stale :
    ∃ (r : Runtime) (s : System Bool), Runtime.create .none {} [] .empty = .ok r ∧ Reachable r s ∧
      (∀ i, (s.worker i).phase.unshown? = none) ∧ s.runtime.mode.mode = .sw ∧
      s.runtime.gauge? = some Mode.hw.gauge ∧ s.runtime.report.mode.current = "hw" := by
  let epoch (i : Bool) : List (Bool × Request) := [(i, .call), (i, .advance), (i, .advance),
    (i, .account 1), (i, .advance), (i, .advance), (i, .advance), (i, .advance), (i, .advance)]
  let steps : List (Bool × Request) := epoch false ++ [(false, .advance), (false, .advance),
    (false, .endBody (.ok 1)), (false, .advance), (false, .account 1), (false, .retire),
    (false, .advance), (false, .advance)] ++ epoch true
  have facts : ((Runtime.create .none {} [] .empty).toOption.bind fun r =>
      ((start r : System Bool).run steps).map fun s => ((s.worker false).phase.unshownMode?,
        (s.act false .advance).map fun (_, s) => (s.runtime.mode.mode,
          (s.worker false).phase.unshownMode?, (s.worker true).phase.unshownMode?))) =
      some (some .hw, some (.sw, none, none)) := by
    decide +kernel
  obtain ⟨r, s, hcreate, hreach, hs⟩ :=
    reachable_of_run (by simp [steps, epoch, Request.SparesMode]) facts
  obtain ⟨about, hact⟩ := Prod.mk.inj hs
  obtain ⟨⟨reply, s'⟩, hact, hs'⟩ := Option.map_eq_some_iff.1 hact
  obtain ⟨hmode, hsettled⟩ := Prod.mk.inj hs'
  obtain ⟨hfalse, htrue⟩ := Prod.mk.inj hsettled
  have created : r.Created := ⟨_, _, _, _, hcreate⟩
  have gauge : s'.runtime.gauge? = some Mode.hw.gauge := by
    rw [gauge_of_act (valid_of_reachable created hreach) (applied_of_reachable created hreach false)
      hact, Phase.shows, about]
    rfl
  refine ⟨r, s', hcreate, hreach.tail (.act false .advance trivial hact), ?_, hmode, gauge,
    Runtime.current_of_gauge gauge⟩
  intro i
  cases i
  · exact Option.map_eq_none_iff.1 hfalse
  · exact Option.map_eq_none_iff.1 htrue

end System

end HybridTM
