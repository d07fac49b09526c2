import Midend.Flow.Liveness

/-!
# Interference graphs

Two locals interfere when they are live at the same place, so that they cannot
share a register. An interference graph has variables as its nodes, in the order
in which they were added, and an edge between each two that interfere. Edges
have no direction, and no variable interferes with itself.
-/

namespace Midend

/-- An undirected graph of variables without loops. -/
structure Interference where
  /-- The nodes, in the order of their addition. -/
  vars : List String := []
  /-- The neighbors of each node that has any. -/
  adjacent : Std.ExtTreeMap String NameSet := ∅
  deriving DecidableEq

namespace Interference

/-- The number of nodes. -/
def size (g : Interference) : Nat := g.vars.length

/-- The variables that interfere with a variable. -/
def neighbors (g : Interference) (v : String) : NameSet := g.adjacent[v]?.getD ∅

/-- The variables that interfere with a variable, in the order of the nodes. -/
def neighborList (g : Interference) (v : String) : List String :=
  g.vars.filter (· ∈ g.neighbors v)

/-- Whether two variables interfere. -/
def hasEdge (g : Interference) (v w : String) : Bool := w ∈ g.neighbors v

theorem hasEdge_iff {g : Interference} {v w : String} : g.hasEdge v w ↔ w ∈ g.neighbors v :=
  decide_eq_true_iff

/-- Adds a node, unless it is there already. The result is its index, the place that it
    has among the nodes. -/
def addNode (g : Interference) (v : String) : Nat × Interference :=
  if v ∈ g.vars then (g.vars.idxOf v, g) else (g.size, { g with vars := g.vars ++ [v] })

/-- Adds several nodes, one after the other. -/
def addNodes (g : Interference) (names : List String) : Interference :=
  names.foldl (fun g v => (g.addNode v).2) g

/-- Notes neighbors of a node. -/
def addNeighbors (g : Interference) (v : String) (ws : List String) : Interference :=
  if ws = [] then g
  else { g with adjacent := g.adjacent.insert v ((g.neighbors v).insertMany ws) }

@[simp] theorem vars_addNeighbors (g : Interference) (v : String) (ws : List String) :
    (g.addNeighbors v ws).vars = g.vars := by
  rw [addNeighbors]
  split <;> rfl

@[simp] theorem mem_neighbors_addNeighbors {g : Interference} {v x y : String} {ws : List String} :
    y ∈ (g.addNeighbors v ws).neighbors x ↔ (v = x ∧ y ∈ ws) ∨ y ∈ g.neighbors x := by
  rw [addNeighbors]
  split
  next h => simp [h]
  next h =>
    simp only [neighbors, Std.ExtTreeMap.getElem?_insert]
    by_cases hv : v = x
    · subst hv
      simp [or_comm]
    · simp [hv]

/-- Adds an edge between two different nodes. -/
def addEdge? (g : Interference) (v w : String) : Option Interference :=
  if v ≠ w ∧ v ∈ g.vars ∧ w ∈ g.vars then some ((g.addNeighbors v [w]).addNeighbors w [v])
  else none

/-- Adds all edges between nodes in a list; names that are no nodes do not
    count. -/
def addClique (g : Interference) (names : List String) : Interference :=
  let nodes := names.filter (· ∈ g.vars)
  nodes.foldl (fun g v => g.addNeighbors v (nodes.filter (· ≠ v))) g

/-- Two variables interfere after all edges in a list were added if they are
    different nodes of the list, or if they interfered before. -/
theorem mem_neighbors_addClique {g : Interference} {names : List String} {x y : String} :
    y ∈ (g.addClique names).neighbors x ↔
      (x ≠ y ∧ (x ∈ names ∧ x ∈ g.vars) ∧ y ∈ names ∧ y ∈ g.vars) ∨ y ∈ g.neighbors x := by
  suffices h : ∀ (nodes vs : List String) (g : Interference),
      y ∈ (vs.foldl (fun g v => g.addNeighbors v (nodes.filter (· ≠ v))) g).neighbors x ↔
        (x ∈ vs ∧ y ∈ nodes ∧ x ≠ y) ∨ y ∈ g.neighbors x by
    rw [addClique, h]
    simp only [List.mem_filter, decide_eq_true_eq]
    grind
  intro nodes vs
  induction vs with
  | nil => simp
  | cons v vs ih =>
    intro g
    rw [List.foldl_cons, ih]
    simp only [mem_neighbors_addNeighbors, List.mem_filter, List.mem_cons, decide_eq_true_eq]
    grind

/-- Adds the edges for an instruction: the variables live before it interfere,
    and so do those it assigns and those live after it. -/
def addInstruction (live : Liveness) (g : Interference) (i : Nat) : Interference :=
  (g.addClique (live.liveIn i).toList).addClique
    ((live.defs i).toList ++ (live.liveOut i).toList)

/-- The interference graph of the locals of a method. -/
def ofLiveness (m : Method) (live : Liveness) : Interference :=
  (List.range live.size).foldl (addInstruction live) (addNodes {} m.locals)

end Interference

end Midend
