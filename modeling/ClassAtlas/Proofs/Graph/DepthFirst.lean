import ClassAtlas.Proofs.Graph.Neighbours

/-!
# Walks are depth-first searches

A walk keeps the names that are still to come on a stack, the same name perhaps several times, and
marks a name only when it is taken from there. The recursive search marks a name, and searches from
its neighbours in turn before it goes on. Both list the same names in the same order: the stack
holds the neighbours that the pending calls of the recursive search have not looked at yet, those of
the innermost call on top.

## Main definitions

* `Graph.DepthFirst` is the recursive search.
* `Graph.advance` takes the next name of a walk, and `Graph.Yields` takes one after the other until
  there is none.

## Main results

* `Graph.DepthFirst.yields`: what a recursive search lists is what a walk with its names on top of
  the stack yields first.
* `Graph.walkFrom_exact`: a walk of a finished graph yields the preorder of the recursive search.
-/

namespace ClassAtlas.Graph

open Relation

variable {next : String → List String} {stack visited listed names : List String}

/-! ## The recursive search -/

/-- The search from some names in turn lists names. A name visited before is passed over. Any other
is listed and visited, and the search from its neighbours comes before that from the names after
it. -/
inductive DepthFirst (next : String → List String) :
    List String → List String → List String → Prop where
  | done {visited : List String} : DepthFirst next visited [] []
  | pass {visited names listed : List String} {name : String} (hname : name ∈ visited) :
    DepthFirst next visited names listed → DepthFirst next visited (name :: names) listed
  | enter {visited names below after : List String} {name : String} (hname : name ∉ visited) :
    DepthFirst next (name :: visited) (next name) below →
    DepthFirst next (below.reverse ++ name :: visited) names after →
    DepthFirst next visited (name :: names) (name :: (below ++ after))

theorem pending_append_le (next : String → List String) (names visited more : List String) :
    pending next names (more ++ visited) ≤ pending next names visited := by
  induction more with
  | nil => exact Nat.le_refl _
  | cons name more ih => exact (pending_cons_le next names (more ++ visited) name).trans ih

/-- The recursive search comes to an end if only finitely many names have neighbours. -/
theorem exists_depthFirst {nodes : List String} (hnext : ∀ name, name ∉ nodes → next name = [])
    (n : Nat) (names visited : List String) (hn : names.length + pending next nodes visited ≤ n) :
    ∃ listed, DepthFirst next visited names listed := by
  induction n generalizing names visited with
  | zero =>
    obtain rfl : names = [] := List.length_eq_zero_iff.1 (by omega)
    exact ⟨[], .done⟩
  | succ n ih =>
    cases names with
    | nil => exact ⟨[], .done⟩
    | cons name names =>
      rw [List.length_cons] at hn
      by_cases hname : name ∈ visited
      · obtain ⟨listed, h⟩ := ih names visited (by omega)
        exact ⟨listed, .pass hname h⟩
      · have hle := length_add_pending_le (hnext name) hname
        obtain ⟨below, hbelow⟩ := ih (next name) (name :: visited) (by omega)
        have hrest := pending_append_le next nodes visited (below.reverse ++ [name])
        rw [List.append_assoc, List.singleton_append] at hrest
        obtain ⟨after, hafter⟩ := ih names (below.reverse ++ name :: visited) (by omega)
        exact ⟨_, .enter hname hbelow hafter⟩

/-! ## A walk step by step -/

/-- The next name of a walk, with the stack and the names visited afterwards: the topmost name of
the stack that was not visited. What follows it is put on the stack. -/
def advance (next : String → List String) : List String → List String →
    Option (String × List String × List String)
  | [], _ => none
  | name :: stack, visited =>
    if visited.contains name then advance next stack visited
    else some (name, next name ++ stack, name :: visited)

/-- A walk yields these names and then no more. -/
inductive Yields (next : String → List String) :
    List String → List String → List String → Prop where
  | stop {stack visited : List String} :
    advance next stack visited = none → Yields next stack visited []
  | step {stack visited stack' visited' listed : List String} {name : String} :
    advance next stack visited = some (name, stack', visited') →
    Yields next stack' visited' listed → Yields next stack visited (name :: listed)

theorem advance_of_mem {name : String} (h : name ∈ visited) :
    advance next (name :: stack) visited = advance next stack visited := by
  rw [advance, if_pos (List.contains_iff_mem.2 h)]

theorem advance_of_not_mem {name : String} (h : name ∉ visited) :
    advance next (name :: stack) visited = some (name, next name ++ stack, name :: visited) := by
  rw [advance, if_neg (mt List.contains_iff_mem.1 h)]

/-- What a walk takes next was not visited, and is afterwards. -/
theorem of_advance_eq_some {name : String} {stack' visited' : List String}
    (h : advance next stack visited = some (name, stack', visited')) :
    name ∉ visited ∧ visited' = name :: visited := by
  induction stack with
  | nil => cases h
  | cons top stack ih =>
    by_cases htop : top ∈ visited
    · exact ih (advance_of_mem htop ▸ h)
    · rw [advance_of_not_mem htop] at h
      cases h
      exact ⟨htop, rfl⟩

theorem Yields.of_mem {name : String} (hname : name ∈ visited)
    (h : Yields next stack visited listed) : Yields next (name :: stack) visited listed := by
  cases h with
  | stop h => exact .stop ((advance_of_mem hname).trans h)
  | step h hrest => exact .step ((advance_of_mem hname).trans h) hrest

/-- Two walks that begin alike yield the same. -/
theorem Yields.unique {listed' : List String} (h : Yields next stack visited listed)
    (h' : Yields next stack visited listed') : listed = listed' := by
  induction h generalizing listed' with
  | stop h =>
    cases h' with
    | stop => rfl
    | step h' => simp [h] at h'
  | step h _ ih =>
    cases h' with
    | stop h' => simp [h] at h'
    | step h' hrest =>
      rw [h] at h'
      cases h'
      rw [ih hrest]

theorem Yields.nodup (h : Yields next stack visited listed) :
    listed.Nodup ∧ ∀ m ∈ listed, m ∉ visited := by
  induction h with
  | stop => simp
  | step h _ ih =>
    obtain ⟨hname, rfl⟩ := of_advance_eq_some h
    obtain ⟨hnodup, hnew⟩ := ih
    refine ⟨List.nodup_cons.2 ⟨fun hm => hnew _ hm List.mem_cons_self, hnodup⟩, ?_⟩
    rintro m (_ | ⟨_, hm⟩)
    · exact hname
    · exact fun hv => hnew m hm (List.mem_cons_of_mem _ hv)

/-- The names of a recursive search on top of a stack are walked first, in the order of the search;
the walk goes on with what was below them. -/
theorem DepthFirst.yields (h : DepthFirst next visited names listed) {rest : List String}
    (hrest : Yields next stack (listed.reverse ++ visited) rest) :
    Yields next (names ++ stack) visited (listed ++ rest) := by
  induction h generalizing stack rest with
  | done => exact hrest
  | pass hname _ ih => exact (ih hrest).of_mem hname
  | @enter visited names below after name hname _ _ ihbelow ihafter =>
    have hbelow : Yields next (next name ++ (names ++ stack)) (name :: visited)
        (below ++ (after ++ rest)) := ihbelow (ihafter (by simpa using hrest))
    simpa using Yields.step (advance_of_not_mem hname) hbelow

theorem DepthFirst.yields_nil (h : DepthFirst next visited names listed) :
    Yields next names visited listed := by
  have hempty : Yields next [] (listed.reverse ++ visited) [] := .stop rfl
  simpa using h.yields hempty

/-- With enough steps, an exploration lists what the walk yields. -/
theorem yields_explore {nodes : List String} (hnext : ∀ name, name ∉ nodes → next name = [])
    (n : Nat) (stack visited : List String) (hn : stack.length + pending next nodes visited ≤ n) :
    Yields next stack visited (explore next n stack visited) := by
  induction n generalizing stack visited with
  | zero =>
    obtain rfl : stack = [] := List.length_eq_zero_iff.1 (by omega)
    exact .stop rfl
  | succ n ih =>
    cases stack with
    | nil => exact .stop rfl
    | cons name stack =>
      rw [List.length_cons] at hn
      by_cases hname : name ∈ visited
      · rw [explore, if_pos (List.contains_iff_mem.2 hname)]
        exact (ih stack visited (by omega)).of_mem hname
      · have hle := length_add_pending_le (hnext name) hname
        rw [explore, if_neg (mt List.contains_iff_mem.1 hname)]
        refine .step (advance_of_not_mem hname) (ih _ _ ?_)
        rw [List.length_append]
        omega

/-- If nothing is put on the stack, what is there is yielded. -/
theorem yields_stack (hnext : ∀ name, next name = []) (hnodup : stack.Nodup)
    (hnew : ∀ name ∈ stack, name ∉ visited) : Yields next stack visited stack := by
  induction stack generalizing visited with
  | nil => exact .stop rfl
  | cons name stack ih =>
    rw [List.nodup_cons] at hnodup
    rw [List.forall_mem_cons] at hnew
    refine .step (advance_of_not_mem hnew.1) ?_
    rw [hnext, List.nil_append]
    refine ih hnodup.2 fun m hm => ?_
    rw [List.mem_cons, not_or]
    exact ⟨fun heq => hnodup.1 (heq ▸ hm), hnew.2 m hm⟩

/-! ## Walks of a graph -/

variable {g : Graph} {direction : Direction}

/-- What is put on the stack when a walk takes a name. -/
def onward (g : Graph) (direction : Direction) (transitive : Bool) (name : String) : List String :=
  if transitive then g.neighbours direction name else []

/-- A walk that begins at a node, which counts as visited, yields these names. -/
def Walks (g : Graph) (direction : Direction) (transitive : Bool) (start : String)
    (listed : List String) : Prop :=
  Yields (g.onward direction transitive) (g.neighbours direction start) [start] listed

/-- The steps that a walk is given are enough for it. -/
theorem length_add_pending_onward_le (g : Graph) (direction : Direction) (transitive : Bool)
    (start : String) : (g.neighbours direction start).length +
      pending (g.onward direction transitive) g.names [start] ≤ g.neighbourTotal direction := by
  have htotal : pending (g.neighbours direction) g.names [] = g.neighbourTotal direction := by
    simp [pending, neighbourTotal]
  have hle : (g.neighbours direction start).length +
      pending (g.neighbours direction) g.names [start] ≤ g.neighbourTotal direction :=
    htotal ▸ length_add_pending_le (fun h => neighbours_eq_nil h direction) List.not_mem_nil
  cases transitive with
  | true => exact hle
  | false =>
    have hzero : pending (g.onward direction false) g.names [start] = 0 :=
      sumOf_eq_zero fun name _ => by split <;> rfl
    omega

/-- A walk yields what is listed for it, whenever it begins. -/
theorem walks_iff {transitive : Bool} {start : String} {listed : List String} :
    g.Walks direction transitive start listed ↔ listed = g.walkFrom direction transitive start := by
  have hnext (name : String) (hname : name ∉ g.names) :
      g.onward direction transitive name = [] := by
    rw [onward, neighbours_eq_nil hname, ite_self]
  have hwalk : g.Walks direction transitive start (g.walkFrom direction transitive start) :=
    yields_explore hnext _ _ _ (length_add_pending_onward_le g direction transitive start)
  exact ⟨fun h => h.unique hwalk, fun h => h ▸ hwalk⟩

/-- The recursive search from the neighbours of a node lists what the walk yields. -/
theorem depthFirst_iff {start : String} {listed : List String} :
    DepthFirst (g.neighbours direction) [start] (g.neighbours direction start) listed ↔
      listed = g.walkFrom direction true start := by
  have hlists {listed : List String}
      (h : DepthFirst (g.neighbours direction) [start] (g.neighbours direction start) listed) :
      listed = g.walkFrom direction true start := walks_iff.1 h.yields_nil
  refine ⟨hlists, fun heq => ?_⟩
  obtain ⟨listed', h⟩ := exists_depthFirst (fun name hname => neighbours_eq_nil hname direction) _
    (g.neighbours direction start) [start] (Nat.le_refl _)
  rwa [heq, ← hlists h]

theorem nodup_walkFrom (g : Graph) (direction : Direction) (transitive : Bool) (start : String) :
    (g.walkFrom direction transitive start).Nodup :=
  (Yields.nodup (walks_iff.2 rfl)).1

theorem Consistent.mem_walkFrom_iff (hg : g.Consistent) {start m : String} :
    m ∈ g.walkFrom direction true start ↔ m ≠ start ∧ TransGen (g.Leads direction) start m := by
  rw [mem_walkFrom]
  simp only [hg.mem_neighbours_iff, reflTransGen_iff_eq_or_transGen]
  tauto

/-- A walk that is not transitive yields the neighbours. -/
theorem Consistent.walkFrom_false (hg : g.Consistent) (start : String) :
    g.walkFrom direction false start = g.neighbours direction start := by
  have hnodup : (g.neighbours direction start).Nodup :=
    (pairwise_neighbours g direction start).imp ne_of_lt
  have hnew : ∀ name ∈ g.neighbours direction start, name ∉ [start] := by
    intro name hname
    rw [List.mem_singleton]
    exact (hg.ne_of_leads (hg.mem_neighbours_iff.1 hname)).symm
  exact (walks_iff.1 (yields_stack (fun _ => rfl) hnodup hnew)).symm

/-- In a finished graph, or the graph of its packages, a walk is finite and yields the same whenever
it begins. If it is transitive, it yields the preorder of the recursive search, whose neighbours are
taken in increasing order: every unit but the start to which a path of edges leads, once. Otherwise
it yields the neighbours in increasing order. -/
theorem walkFrom_exact (config : GraphConfig) (units : List UnitReferences) (n : Nat)
    (direction : Direction) (start : String) :
    let g := Graph.packages^[n] ((GraphBuilder.start config).ingestAll units).finish
    (∀ transitive listed, g.Walks direction transitive start listed ↔
      listed = g.walkFrom direction transitive start) ∧
    (∀ listed, DepthFirst (g.neighbours direction) [start] (g.neighbours direction start) listed ↔
      listed = g.walkFrom direction true start) ∧
    (∀ name, (g.neighbours direction name).Pairwise (· < ·) ∧
      ∀ m, m ∈ g.neighbours direction name ↔ g.Leads direction name m) ∧
    (g.walkFrom direction true start).Nodup ∧
    (∀ m, m ∈ g.walkFrom direction true start ↔
      m ≠ start ∧ TransGen (g.Leads direction) start m) ∧
    g.walkFrom direction false start = g.neighbours direction start := by
  intro g
  have hg : g.Consistent := GraphBuilder.consistent_finished config units n
  exact ⟨fun _ _ => walks_iff, fun _ => depthFirst_iff,
    fun name => ⟨pairwise_neighbours g direction name, fun _ => hg.mem_neighbours_iff⟩,
    nodup_walkFrom g direction true start, fun _ => hg.mem_walkFrom_iff, hg.walkFrom_false start⟩

end ClassAtlas.Graph
