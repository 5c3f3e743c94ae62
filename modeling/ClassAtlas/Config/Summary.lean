import ClassAtlas.Config.Basic
import ClassAtlas.Text.Quoted

/-!
# Summaries of configurations

A configuration in one line, for display.
-/

namespace ClassAtlas

/-- The line that sums a configuration up, where `workers` workers do the work. -/
def AnalysisConfig.summary (config : AnalysisConfig) (workers : Nat) : String :=
  let kinds := ",".intercalate (config.graph.kinds.elements.map EdgeKind.label)
  " ".intercalate [
    s!"preset={config.preset.label}",
    s!"kinds=[{kinds}]",
    s!"unresolved={config.graph.unresolved.title}",
    s!"excluded={Text.quotedList config.graph.excluded}",
    s!"signatures={config.extraction.signatures}",
    s!"annotation_values={config.extraction.annotationValues}",
    s!"workers={workers}"]

end ClassAtlas
