import ClassAtlas.Graph.Basic

/-!
# Dependencies first

`Graph.topologicalOrder` lists every unit after the units it refers to, as far as there are no
cycles. Of several units that are ready the one with the smallest name comes first. Units that lie
on a cycle or refer to one never become ready; they follow at the end in the order of their names.
-/

namespace ClassAtlas.Graph

/-- How many units each unlisted unit still waits for, and which units wait for none. -/
structure Waiting where
  pending : SortedMap String Nat
  ready : SortedSet String

/-- One unit fewer to wait for. -/
def Waiting.release (w : Waiting) (name : String) : Waiting :=
  match w.pending.get? name with
  | none => w
  | some degree =>
    ⟨w.pending.insert name (degree - 1), if degree - 1 = 0 then w.ready.add name else w.ready⟩

/-- Lists the smallest ready unit and releases those that refer to it, at most so many times. What
is still pending is listed at the end. -/
def drain (g : Graph) : Nat → Waiting → List String
  | 0, w => w.pending.keys
  | n + 1, w =>
    match w.ready.elements with
    | [] => w.pending.keys
    | name :: _ =>
      let left : Waiting :=
        ⟨w.pending.filter fun k _ => k ≠ name, w.ready.filter fun k _ => k ≠ name⟩
      name :: drain g n ((g.predecessorsOf name).foldl Waiting.release left)

/-- All units, dependencies before the units that refer to them. -/
def topologicalOrder (g : Graph) : List String :=
  let pending := g.nodes.mapValues fun _ node => node.successors.length
  let ready := SortedSet.ofElements (pending.filter fun _ degree => degree = 0).keys
  drain g g.nodeCount ⟨pending, ready⟩

end ClassAtlas.Graph
