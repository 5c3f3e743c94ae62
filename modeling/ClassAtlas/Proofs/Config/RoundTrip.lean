import Mathlib.Data.List.Basic
import ClassAtlas.Config.Layout
import ClassAtlas.Proofs.Outcome
import ClassAtlas.Proofs.Text.InternalForm

/-!
# Export and reload of configurations

The document that is written for a configuration names every setting, so reading it does not depend
on the preset. The starts of names to leave out are brought to internal form when they are read. For
a valid configuration this removes the blanks around them, so that those with such blanks are not
read as they were written.

## Main statements

* `ConfigDocument.resolve_ofConfig` says what the document of a configuration describes.
* `AnalysisConfig.load_write` says when a configuration is read back as it was written, for any way
  of reading and writing documents.
* `AnalysisConfig.ofText_toText` says so of configuration files.
-/

namespace ClassAtlas

/-! ## Valid configurations -/

theorem checkExclusion_eq_ok_iff {start : String} :
    checkExclusion start = .ok () ↔ start ≠ "" ∧ '.' ∉ start.toList := by
  unfold checkExclusion
  split
  · simp_all
  · split <;> simp_all

namespace AnalysisConfig

/-- The settings are in order, the names to leave out apart. -/
structure Sound (config : AnalysisConfig) : Prop where
  version : config.version = 1
  kinds : config.graph.kinds.isEmpty = false
  workers : config.work.workers ≤ maxWorkers

/-- Only the names to leave out are left to check. -/
theorem Sound.validate_eq {config : AnalysisConfig} (h : config.Sound) :
    config.validate = config.graph.excluded.forM checkExclusion := by
  have hgraph : config.graph.validate = config.graph.excluded.forM checkExclusion := by
    simp [GraphConfig.validate, h.kinds]
  have hwork : config.work.validate = .ok () := if_neg (Nat.not_lt.2 h.workers)
  rw [validate, h.version, hgraph, hwork]
  cases config.graph.excluded.forM checkExclusion <;> rfl

theorem sound_of_validate {config : AnalysisConfig} (h : config.validate = .ok ()) :
    config.Sound := by
  unfold validate at h
  split at h
  · cases h
  · next hversion =>
    obtain ⟨_, hgraph, h⟩ := exists_of_bind_eq_ok h
    obtain ⟨_, -, hwork⟩ := exists_of_bind_eq_ok h
    refine ⟨by simpa [supportedVersions] using hversion, ?_, ?_⟩
    · rw [GraphConfig.validate] at hgraph
      split at hgraph
      · cases hgraph
      · next hkinds => exact Bool.eq_false_iff.2 hkinds
    · rw [WorkConfig.validate] at hwork
      split at hwork
      · cases hwork
      · next hworkers => exact Nat.not_lt.1 hworkers

theorem validate_eq_ok_iff {config : AnalysisConfig} : config.validate = .ok () ↔ config.Sound ∧
    ∀ start ∈ config.graph.excluded, start ≠ "" ∧ '.' ∉ start.toList := by
  simp only [← checkExclusion_eq_ok_iff, ← forM_eq_ok_iff]
  constructor
  · intro h
    have hsound := sound_of_validate h
    exact ⟨hsound, hsound.validate_eq ▸ h⟩
  · rintro ⟨hsound, hstarts⟩
    rw [hsound.validate_eq, hstarts]

end AnalysisConfig

/-! ## Documents that name every setting -/

theorem GraphPatch.kindsOfLabels_label (kinds : List EdgeKind) :
    kindsOfLabels (kinds.map EdgeKind.label) = .ok kinds := by
  unfold kindsOfLabels
  induction kinds with
  | nil => rfl
  | cons kind kinds ih =>
    rw [List.map_cons, List.mapM_cons, ih, EdgeKind.ofLabel?_label]
    rfl

/-- A section that is named in full replaces the one of the preset, with the names to leave out in
internal form. -/
theorem GraphPatch.apply_ofConfig (config base : GraphConfig) : (ofConfig config).apply base =
    .ok { config with excluded := config.excluded.map Name.normalize } := by
  simp only [apply, ofConfig, kindsOfLabels_label]
  change Except.ok _ = _
  rw [SortedSet.ofElements_elements]
  rfl

namespace AnalysisConfig

/-- The configuration with the names to leave out in internal form. -/
def normalized (config : AnalysisConfig) : AnalysisConfig :=
  { config with
    graph := { config.graph with excluded := config.graph.excluded.map Name.normalize } }

/-- The configuration without the blanks around the names to leave out. -/
def trimmed (config : AnalysisConfig) : AnalysisConfig :=
  { config with
    graph := { config.graph with excluded := config.graph.excluded.map Text.trimmed } }

end AnalysisConfig

/-- The document of a configuration describes it, but for the form of the names to leave out. -/
theorem ConfigDocument.resolve_ofConfig {config : AnalysisConfig} (hversion : config.version = 1) :
    (ofConfig config).resolve = config.normalized.validate >>= fun _ => .ok config.normalized := by
  obtain ⟨version, preset, graph, extraction, work⟩ := config
  cases hversion
  simp only [resolve, ofConfig, presetOf, Preset.ofLabel?_label]
  rw [if_neg (by decide)]
  simp only [GraphPatch.apply_ofConfig]
  cases preset <;> rfl

theorem checkExclusion_trimmed {start : String} (h : '.' ∉ start.toList) :
    checkExclusion (Text.trimmed start) =
      if Text.trimmed start = "" then .error (.badExclusion "" .empty) else .ok () := by
  split
  · next hempty =>
    rw [hempty]
    rfl
  · next hne =>
    refine checkExclusion_eq_ok_iff.2 ⟨hne, fun hdot => h ?_⟩
    rw [Text.trimmed, String.toList_ofList] at hdot
    exact Text.mem_of_mem_trim hdot

/-- Trimmed names to leave out are rejected if one of them was nothing but blanks. -/
theorem forM_checkExclusion_trimmed {starts : List String}
    (h : ∀ start ∈ starts, '.' ∉ start.toList) :
    (starts.map Text.trimmed).forM checkExclusion =
      if "" ∈ starts.map Text.trimmed then .error (.badExclusion "" .empty) else .ok () := by
  induction starts with
  | nil => rfl
  | cons start starts ih =>
    rw [List.forall_mem_cons] at h
    change (checkExclusion (Text.trimmed start) >>= fun _ => (starts.map Text.trimmed).forM _) = _
    rw [checkExclusion_trimmed h.1, ih h.2, List.map_cons]
    by_cases hempty : Text.trimmed start = ""
    · rw [if_pos hempty, if_pos (List.mem_cons.2 (.inl hempty.symm))]
      rfl
    · simp only [hempty, List.mem_cons, Ne.symm hempty, false_or, if_false]
      rfl

namespace AnalysisConfig

theorem normalized_eq_trimmed {config : AnalysisConfig}
    (h : ∀ start ∈ config.graph.excluded, '.' ∉ start.toList) :
    config.normalized = config.trimmed := by
  have hmap : config.graph.excluded.map Name.normalize = config.graph.excluded.map Text.trimmed :=
    List.map_congr_left fun start hstart => Name.normalize_eq_trimmed (h start hstart)
  rw [normalized, trimmed, hmap]

theorem trimmed_eq_self_iff {config : AnalysisConfig} : config.trimmed = config ↔
    ∀ start ∈ config.graph.excluded, Text.trimmed start = start := by
  constructor
  · intro h start hstart
    have hmap : config.graph.excluded.map Text.trimmed = config.graph.excluded :=
      congrArg (·.graph.excluded) h
    exact List.map_inj_left.1 (hmap.trans (List.map_id _).symm) start hstart
  · intro h
    rw [trimmed, (List.map_congr_left h).trans (List.map_id' _)]

/-- What the document of a valid configuration describes. -/
theorem resolve_ofConfig_of_valid {config : AnalysisConfig} (hvalid : config.validate = .ok ()) :
    (ConfigDocument.ofConfig config).resolve =
      if "" ∈ config.trimmed.graph.excluded then .error (.badExclusion "" .empty)
      else .ok config.trimmed := by
  obtain ⟨hsound, hstarts⟩ := validate_eq_ok_iff.1 hvalid
  have hdots : ∀ start ∈ config.graph.excluded, '.' ∉ start.toList :=
    fun start hstart => (hstarts start hstart).2
  have hsound' : config.trimmed.Sound := ⟨hsound.version, hsound.kinds, hsound.workers⟩
  have hvalidate : config.trimmed.validate =
      if "" ∈ config.trimmed.graph.excluded then .error (.badExclusion "" .empty) else .ok () :=
    hsound'.validate_eq.trans (forM_checkExclusion_trimmed hdots)
  rw [ConfigDocument.resolve_ofConfig hsound.version, normalized_eq_trimmed hdots, hvalidate]
  split <;> rfl

/-- Whatever reads and writes the documents: if the document of a valid configuration is read as it
was written, the configuration that is read is the one without blanks around the names to leave out.
It is rejected if one of these was nothing but blanks. -/
theorem load_write (read? : String → Option ConfigDocument) (write : ConfigDocument → String)
    {config : AnalysisConfig} (hvalid : config.validate = .ok ())
    (hread : read? (write (.ofConfig config)) = some (.ofConfig config)) :
    ConfigDocument.load read? (write (.ofConfig config)) =
        (if "" ∈ config.trimmed.graph.excluded then .error (.badExclusion "" .empty)
        else .ok config.trimmed) ∧
      (ConfigDocument.load read? (write (.ofConfig config)) = .ok config ↔
        ∀ start ∈ config.graph.excluded, Text.trimmed start = start) := by
  have hload : ConfigDocument.load read? (write (.ofConfig config)) =
      if "" ∈ config.trimmed.graph.excluded then .error (.badExclusion "" .empty)
      else .ok config.trimmed := by
    rw [ConfigDocument.load, hread]
    exact resolve_ofConfig_of_valid hvalid
  refine ⟨hload, ?_⟩
  rw [hload, ← trimmed_eq_self_iff]
  split
  · next hblank =>
    refine ⟨fun h => (nomatch h), fun h => ?_⟩
    rw [h] at hblank
    exact absurd rfl ((validate_eq_ok_iff.1 hvalid).2 "" hblank).1
  · rw [Except.ok.injEq]

/-- A configuration that is written and read is the one without blanks around the names to leave
out, and it is rejected if one of these was nothing but blanks. So it is read back as it was exactly
if there are no such blanks. -/
theorem ofText_toText {config : AnalysisConfig} (hvalid : config.validate = .ok ())
    (hread : ConfigDocument.read? config.toText = some (.ofConfig config)) :
    ofText config.toText =
        (if "" ∈ config.trimmed.graph.excluded then .error (.badExclusion "" .empty)
        else .ok config.trimmed) ∧
      (ofText config.toText = .ok config ↔
        ∀ start ∈ config.graph.excluded, Text.trimmed start = start) :=
  load_write ConfigDocument.read? ConfigDocument.render hvalid hread

/-- A configuration with a blank in front of the file ending that the builder removes. -/
def withBlank : AnalysisConfig :=
  { ofPreset .structural with graph := (GraphConfig.ofPreset .structural).exclude "java/ .class" }

theorem read?_toText_withBlank :
    ConfigDocument.read? withBlank.toText = some (.ofConfig withBlank) := by
  -- Evaluation is much faster on the characters of the sections than on those of the whole text.
  simp only [ConfigDocument.read?, Yaml.Document.read?, toText, ConfigDocument.render,
    String.toList_append]
  decide +kernel

theorem ofText_toText_withBlank : ofText withBlank.toText = .ok withBlank.trimmed := by
  have hvalid : withBlank.validate = .ok () := by decide
  have hread := (ofText_toText hvalid read?_toText_withBlank).1
  rwa [if_neg (by decide)] at hread

/-- Not every valid configuration is read back as it was written. -/
theorem exists_valid_not_reloaded : withBlank.validate = .ok () ∧
    ConfigDocument.read? withBlank.toText = some (.ofConfig withBlank) ∧
    ofText withBlank.toText ≠ .ok withBlank := by
  have hvalid : withBlank.validate = .ok () := by decide
  have hload := (load_write ConfigDocument.read? ConfigDocument.render hvalid
    read?_toText_withBlank).1
  rw [if_neg (by decide)] at hload
  refine ⟨hvalid, read?_toText_withBlank, ?_⟩
  rw [ofText, toText, hload]
  decide

end AnalysisConfig

end ClassAtlas
