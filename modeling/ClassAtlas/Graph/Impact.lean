import ClassAtlas.Graph.Walk

/-!
# Impact of a change

What is affected if a unit changes or disappears: the units that refer to it, directly or through
others, their packages, and a score of the risk relative to the size of the graph.
-/

namespace ClassAtlas

/-- A rough measure of risk. -/
inductive RiskLevel where
  | low
  | medium
  | high
  deriving DecidableEq

/-- What a change of one unit affects. -/
structure Impact where
  target : String
  /-- The units that refer to the target, in order. -/
  direct : List String
  /-- The units that reach the target, in order. -/
  transitive : List String
  /-- The packages of the units that reach the target, in order. -/
  packages : List String
  /-- Between 0 and 1. -/
  risk : Float
  /-- The largest distance of a unit that reaches the target. -/
  maxDepth : Nat
  /-- How many units refer to the target in each way that occurs. -/
  byKind : List (EdgeKind × Nat)

namespace Impact

/-- The score of a unit to which `direct` units refer and which `transitive` units reach, out of
`total`. The score is full if a tenth of the graph reaches the unit; direct references raise it by
at most 0.3. -/
def riskScore (direct transitive total : Nat) : Float :=
  if total = 0 then 0.0
  else
    let base := min (transitive.toFloat / total.toFloat * 10.0) 1.0
    let boost := min (direct.toFloat / total.toFloat * 5.0) 0.3
    min (base + boost) 1.0

/-- The number of further layers of a breadth-first search from a layer, at most so many. -/
def depthFrom (next : String → List String) : Nat → List String → List String → Nat
  | 0, _, _ => 0
  | n + 1, layer, seen =>
    let new := sortedDistinct ((layer.flatMap next).filter fun name => !seen.contains name)
    if new.isEmpty then 0 else depthFrom next n new (new ++ seen) + 1

/-- The impact of a change of the unit that a given name stands for. -/
def compute? (g : Graph) (name : String) : Option Impact := do
  let node ← g.node? name
  let target ← g.key? name
  let direct := node.predecessors
  let transitive := sortedDistinct (g.dependentsOf target true)
  return {
    target
    direct
    transitive
    packages := sortedDistinct (transitive.map Name.package)
    risk := riskScore direct.length transitive.length g.nodeCount
    maxDepth := depthFrom g.predecessorsOf g.nodeCount [target] [target]
    byKind := (EdgeKind.all.map fun kind =>
      (kind, (node.incoming.elements.filter (·.kind = kind)).length)).filter (·.2 ≠ 0) }

def level (impact : Impact) : RiskLevel :=
  if impact.risk ≥ 0.7 then .high else if impact.risk ≥ 0.3 then .medium else .low

/-- The risk is high. -/
def isBreaking (impact : Impact) : Bool := impact.risk ≥ 0.7

end Impact

/-- What changes of several units affect. -/
structure BatchImpact where
  impacts : List Impact
  /-- The packages affected by any of the changes, in order. -/
  packages : List String
  maxRisk : Float
  /-- The number of units asked for, known or not. -/
  unitsChanged : Nat

namespace BatchImpact

/-- The impact of changes of several units; unknown ones are passed over. -/
def compute (g : Graph) (names : List String) : BatchImpact :=
  let impacts := names.filterMap (Impact.compute? g)
  { impacts
    packages := sortedDistinct (impacts.flatMap Impact.packages)
    maxRisk := (impacts.map Impact.risk).foldl max 0.0
    unitsChanged := names.length }

/-- The number of units that reach one of the changed ones, counted for each change. -/
def totalDependents (batch : BatchImpact) : Nat :=
  sumOf (fun i => i.transitive.length) batch.impacts

/-- The number of changes with a given level of risk. -/
def countLevel (batch : BatchImpact) (level : RiskLevel) : Nat :=
  (batch.impacts.filter (·.level = level)).length

end BatchImpact

end ClassAtlas
