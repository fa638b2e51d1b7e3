import HybridTM.Hybrid.Config
import HybridTM.Proofs.PolicyText

/-!
# Configurations as text

A configuration is written as an object with all of its settings. A text may give some of them, in
any order, and so may the section of the software engine within it; only a policy is given whole,
with its name anywhere among its parameters (`HybridConfig.Excerpt`). However its blanks are set,
such a text is read as the configuration that has the given settings and the defaults for all others
(`HybridConfig.Excerpt.read_eq`). It is loaded just if this configuration passes its check, and
otherwise the check's complaint is the answer (`HybridConfig.load_of_read`).

The two ends are the whole configuration as it is written, which comes back, and the empty object,
which stands for the defaults; these pass their own check (`HybridConfig.textLaw`).
-/

set_option autoImplicit false

namespace HybridTM

namespace SoftwareConfig

/-- The members of a section in declared order, with the policy as it is given. -/
def members (c : SoftwareConfig) (contention : Json) : List (String × Json) :=
  [("max_consecutive_failures", .ofCount c.maxFailures), ("contention", contention)]

theorem nodup_keys_members (c : SoftwareConfig) (contention : Json) :
    ((c.members contention).map Prod.fst).Nodup := by
  simp [members]

/-- Some of the settings of a software engine, in any order. -/
structure Excerpt (c : SoftwareConfig) where
  /-- The members of the policy. -/
  policy : List (String × Json)
  /-- The policy is whole. -/
  policy_perm : policy.Perm c.contention.members
  /-- The members of the section. -/
  given : List (String × Json)
  /-- They are some of those that there are. -/
  given_subperm : given.Subperm (c.members (.record policy))

namespace Excerpt

variable {c : SoftwareConfig} (e : c.Excerpt)

/-- The object of the given settings. -/
def json : Json := .record e.given

/-- The given settings, with the defaults for all others. -/
def config : SoftwareConfig where
  maxFailures := Json.chosen e.given "max_consecutive_failures" c.maxFailures default.maxFailures
  contention := Json.chosen e.given "contention" c.contention default.contention

/-- All settings in declared order. -/
def whole (c : SoftwareConfig) : c.Excerpt where
  policy := c.contention.members
  policy_perm := .refl _
  given := c.members c.contention.toJson
  given_subperm := .refl _

theorem config_whole (c : SoftwareConfig) : (whole c).config = c := by
  rcases c with ⟨maxFailures, contention⟩
  simp [config, whole, members, Json.chosen]

theorem writable_json : e.json.Writable := by
  refine Json.writable_record fun m hm => ?_
  have hmem := e.given_subperm.subset hm
  simp only [members, List.mem_cons, List.not_mem_nil, or_false] at hmem
  rcases hmem with rfl | rfl
  · exact Json.writable_ofCount c.maxFailures
  · exact Json.writable_record fun m hm =>
      Policy.writable_of_mem_members (e.policy_perm.mem_iff.1 hm)

/-- The section is read as the given settings and defaults. -/
theorem ofJson?_json (outer : Nat) (room : outer + 1 < Json.nestingLimit) :
    ofJson? outer e.json = some e.config := by
  have keys := c.nodup_keys_members (.record e.policy)
  have hfields : e.json.fields? fieldNames = some ⟨e.given, false⟩ := by
    refine Json.fields?_record (Json.nodup_keys_of_subperm keys e.given_subperm) fun m hm => ?_
    exact List.mem_map_of_mem (e.given_subperm.subset hm)
  have hfailures := Json.Fields.withDefault_of_subperm keys e.given_subperm
    "max_consecutive_failures" (by simp [members]) (Json.count?_ofCount c.maxFailures)
    default.maxFailures
  have hcontention := Json.Fields.withDefault_of_subperm keys e.given_subperm
    "contention" (by simp [members]) (Policy.ofJson?_of_perm e.policy_perm room)
    default.contention
  rw [ofJson?, hfields]
  simp only [Option.bind_eq_bind, Option.bind_some, hfailures, hcontention]
  rfl

end Excerpt

end SoftwareConfig

namespace HybridConfig

/-- The members of a configuration in declared order, with the section of the software engine as it
is given. -/
def members (c : HybridConfig) (software : Json) : List (String × Json) :=
  [("htm_max_retries", .ofCount c.maxRetries), ("sampling_rate", .ofCount c.samplingRate),
    ("hw_cost_threshold", .ofWord c.costThreshold),
    ("explicit_abort_rate_threshold", .ofCount c.explicitRateThreshold),
    ("sw_window_initial", .ofCount c.windowInitial), ("sw_window_max", .ofCount c.windowMax),
    ("require_htm", .bool c.requireHardware), ("norec", software)]

theorem nodup_keys_members (c : HybridConfig) (software : Json) :
    ((c.members software).map Prod.fst).Nodup := by
  simp [members]

/-- Some of the settings of a configuration, in any order. -/
structure Excerpt (c : HybridConfig) where
  /-- Some of the settings of the software engine. -/
  software : c.software.Excerpt
  /-- The members of the object. -/
  given : List (String × Json)
  /-- They are some of those that there are. -/
  given_subperm : given.Subperm (c.members software.json)

namespace Excerpt

variable {c : HybridConfig} (e : c.Excerpt)

/-- The object of the given settings. -/
def json : Json := .record e.given

/-- The given settings, with the defaults for all others. -/
def config : HybridConfig where
  maxRetries := Json.chosen e.given "htm_max_retries" c.maxRetries default.maxRetries
  samplingRate := Json.chosen e.given "sampling_rate" c.samplingRate default.samplingRate
  costThreshold := Json.chosen e.given "hw_cost_threshold" c.costThreshold default.costThreshold
  explicitRateThreshold := Json.chosen e.given "explicit_abort_rate_threshold"
    c.explicitRateThreshold default.explicitRateThreshold
  windowInitial := Json.chosen e.given "sw_window_initial" c.windowInitial default.windowInitial
  windowMax := Json.chosen e.given "sw_window_max" c.windowMax default.windowMax
  requireHardware := Json.chosen e.given "require_htm" c.requireHardware default.requireHardware
  software := Json.chosen e.given "norec" e.software.config default.software

/-- All settings in declared order. -/
def whole (c : HybridConfig) : c.Excerpt where
  software := .whole c.software
  given := c.members c.software.toJson
  given_subperm := .refl _

/-- No settings at all. -/
def empty (c : HybridConfig) : c.Excerpt where
  software := .whole c.software
  given := []
  given_subperm := List.nil_subperm

theorem json_whole (c : HybridConfig) : (whole c).json = c.toJson := rfl

theorem config_whole (c : HybridConfig) : (whole c).config = c := by
  rcases c with ⟨maxRetries, samplingRate, costThreshold, explicitRateThreshold, windowInitial,
    windowMax, requireHardware, software⟩
  simp [config, whole, members, Json.chosen, SoftwareConfig.Excerpt.config_whole]

theorem config_empty (c : HybridConfig) : (empty c).config = default := rfl

theorem writable_json : e.json.Writable := by
  refine Json.writable_record fun m hm => ?_
  have hmem := e.given_subperm.subset hm
  simp only [members, List.mem_cons, List.not_mem_nil, or_false] at hmem
  rcases hmem with rfl | rfl | rfl | rfl | rfl | rfl | rfl | rfl
  · exact Json.writable_ofCount c.maxRetries
  · exact Json.writable_ofCount c.samplingRate
  · exact Json.writable_ofWord c.costThreshold
  · exact Json.writable_ofCount c.explicitRateThreshold
  · exact Json.writable_ofCount c.windowInitial
  · exact Json.writable_ofCount c.windowMax
  · exact Json.writable_bool c.requireHardware
  · exact e.software.writable_json

/-- The object is read as the given settings and defaults. -/
theorem ofJson?_json : ofJson? e.json = some e.config := by
  have keys := c.nodup_keys_members e.software.json
  have hfields : e.json.fields? fieldNames = some ⟨e.given, false⟩ := by
    refine Json.fields?_record (Json.nodup_keys_of_subperm keys e.given_subperm) fun m hm => ?_
    exact List.mem_map_of_mem (e.given_subperm.subset hm)
  -- Each setting that is given is read as it is written.
  have field {α : Type} (name : String) {v : Json} (mem : (name, v) ∈ c.members e.software.json)
      {decode : Json → Option α} {x : α} (reads : decode v = some x) (default : α) :
      Json.Fields.withDefault ⟨e.given, false⟩ name decode default =
        some (Json.chosen e.given name x default) :=
    Json.Fields.withDefault_of_subperm keys e.given_subperm name mem reads default
  have hbool : Json.bool? (.bool c.requireHardware) = some c.requireHardware := rfl
  have hmaxRetries := field "htm_max_retries" (by simp [members])
    (Json.count?_ofCount c.maxRetries) default.maxRetries
  have hsamplingRate := field "sampling_rate" (by simp [members])
    (Json.count?_ofCount c.samplingRate) default.samplingRate
  have hcostThreshold := field "hw_cost_threshold" (by simp [members])
    (Json.word?_ofWord c.costThreshold) default.costThreshold
  have hexplicitRate := field "explicit_abort_rate_threshold" (by simp [members])
    (Json.count?_ofCount c.explicitRateThreshold) default.explicitRateThreshold
  have hwindowInitial := field "sw_window_initial" (by simp [members])
    (Json.count?_ofCount c.windowInitial) default.windowInitial
  have hwindowMax := field "sw_window_max" (by simp [members])
    (Json.count?_ofCount c.windowMax) default.windowMax
  have hrequire := field "require_htm" (by simp [members]) hbool default.requireHardware
  have hsoftware := field "norec" (by simp [members])
    (e.software.ofJson?_json 1 (by decide)) default.software
  rw [ofJson?, hfields]
  simp only [Option.bind_eq_bind, Option.bind_some, hmaxRetries, hsamplingRate, hcostThreshold,
    hexplicitRate, hwindowInitial, hwindowMax, hrequire, hsoftware]
  rfl

/-- A text of the object is read as the given settings and defaults. -/
theorem read_eq {text : String} (h : e.json.SpelledBy text) : read text = .ok e.config := by
  rw [read, Json.parse?_of_spelledBy h, Option.bind_some, e.ofJson?_json]

end Excerpt

/-- What is read is checked then. -/
theorem load_of_read {c : HybridConfig} {text : String} (h : read text = .ok c) :
    load text = c.validate.map fun _ => c := by
  rw [load, h]
  show (c.validate >>= fun _ => Except.ok c) = _
  cases c.validate <;> rfl

theorem load_eq_ok_iff {c c' : HybridConfig} {text : String} (h : read text = .ok c) :
    load text = .ok c' ↔ c' = c ∧ c.validate = .ok () := by
  rw [load_of_read h]
  cases c.validate with
  | error err => simp [Except.map]
  | ok u => simp [Except.map, eq_comm]

theorem load_eq_error_iff {c : HybridConfig} {text : String} (h : read text = .ok c)
    (err : ConfigError) : load text = .error err ↔ c.validate = .error err := by
  rw [load_of_read h]
  cases c.validate with
  | error err' => simp [Except.map]
  | ok u => simp [Except.map]

/-- How the texts of a configuration, or of a part of it, are read and loaded. -/
structure TextLaw (c : HybridConfig) : Prop where
  /-- Each text of some settings in some order stands for these settings and defaults. -/
  read : ∀ (e : c.Excerpt) (text : String), e.json.SpelledBy text → read text = .ok e.config
  /-- It is loaded just if they pass the check. -/
  loaded_iff : ∀ (e : c.Excerpt) (text : String), e.json.SpelledBy text → ∀ c',
    load text = .ok c' ↔ c' = e.config ∧ e.config.validate = .ok ()
  /-- Otherwise the answer is what the check says. -/
  refused_iff : ∀ (e : c.Excerpt) (text : String), e.json.SpelledBy text → ∀ err,
    load text = .error err ↔ e.config.validate = .error err
  /-- There are such texts, compact and over several lines. -/
  spelled : ∀ e : c.Excerpt, e.json.SpelledBy e.json.compact ∧ e.json.SpelledBy e.json.pretty
  /-- The values of all settings are those that are written for the configuration. -/
  whole : (Excerpt.whole c).json = c.toJson ∧ (Excerpt.whole c).config = c
  /-- What is written is read back, and loaded if the configuration passes the check. -/
  written : HybridConfig.read c.render = .ok c ∧ (load c.render = .ok c ↔ c.validate = .ok ())
  /-- An object without settings stands for the defaults, which pass the check. -/
  empty : ∀ text : String, (Json.object []).SpelledBy text →
    HybridConfig.read text = .ok default ∧ load text = .ok default

/-- For any configuration. -/
theorem textLaw (c : HybridConfig) : TextLaw c where
  read e _ h := e.read_eq h
  loaded_iff e _ h c' := load_eq_ok_iff (e.read_eq h)
  refused_iff e _ h err := load_eq_error_iff (e.read_eq h) err
  spelled e := ⟨Json.spelledBy_compact e.writable_json, Json.spelledBy_pretty e.writable_json⟩
  whole := ⟨Excerpt.json_whole c, Excerpt.config_whole c⟩
  written := by
    have hspelled : (Excerpt.whole c).json.SpelledBy c.render :=
      Json.spelledBy_compact (Excerpt.whole c).writable_json
    have hread := (Excerpt.whole c).read_eq hspelled
    rw [Excerpt.config_whole] at hread
    have hload : load c.render = .ok c ↔ c = c ∧ c.validate = .ok () := load_eq_ok_iff hread
    exact ⟨hread, hload.trans (and_iff_right rfl)⟩
  empty text h := by
    have hread := (Excerpt.empty c).read_eq h
    rw [Excerpt.config_empty] at hread
    exact ⟨hread, (load_eq_ok_iff hread).2 ⟨rfl, rfl⟩⟩

/-- A section with one setting, and a setting beside it. -/
example :
    load "\x7b \"norec\": \x7b\"contention\": \x7b\"policy\": \"aggressive\"\x7d\x7d,
      \"sampling_rate\": 64 \x7d" =
      .ok { samplingRate := 64, software := { contention := .aggressive } } := by
  rfl

end HybridConfig

end HybridTM
