import Midend.Register.Interference

/-!
# Colorings

Registers are found by coloring the interference graph with `k` colors, one for
each register. First the graph is *simplified*: as long as there is a node with
fewer than `k` neighbors left, the first such node is removed. If that empties
the graph, colors are *selected* in the reverse order: each node gets the least
color that no neighbor has so far, of which there is one below `k`, since fewer
than `k` of its neighbors were left when it was removed. If simplification gets
stuck, there is no coloring; the choice is never revised.
-/

namespace Midend

/-- Colors below `k` for variables. -/
structure Coloring where
  /-- The number of colors allowed. -/
  k : Nat
  /-- The color of each variable. -/
  colors : Std.ExtTreeMap String Nat
  deriving DecidableEq

namespace Coloring

/-- One more than the largest color, or `0` if nothing is colored. -/
def used (c : Coloring) : Nat := c.colors.foldl (fun n _ color => max n (color + 1)) 0

/-- Whether all nodes of a graph have a color below `k`, and each another one
    than its neighbors. -/
def isProperFor (c : Coloring) (g : Interference) : Bool :=
  g.vars.all fun v =>
    c.colors[v]?.any fun color =>
      color < c.k && (g.neighborList v).all fun w => c.colors[w]? ≠ some color

end Coloring

/-- A graph in the course of its simplification. -/
structure Simplification where
  /-- The nodes that are left, in their order. -/
  left : List String
  /-- For each node, the number of its neighbors that are left. -/
  degree : Std.ExtTreeMap String Nat

namespace Interference

/-- The graph before its simplification. -/
def whole (g : Interference) : Simplification where
  left := g.vars
  degree := .ofList (g.vars.map fun v => (v, (g.neighbors v).size))

/-- Removes a node and counts it off at its neighbors. -/
def remove (g : Interference) (s : Simplification) (v : String) : Simplification where
  left := s.left.erase v
  degree := (g.neighbors v).toList.foldl (fun d w => d.modify w (· - 1)) s.degree

/-- The first node with fewer than `k` neighbors left. -/
def removable? (s : Simplification) (k : Nat) : Option String :=
  s.left.find? fun v => s.degree[v]?.any (· < k)

/-- Removes `n` nodes; the result lists them in the order of their removal. -/
def simplify? (g : Interference) (k : Nat) : Nat → Simplification → Option (List String)
  | 0, _ => some []
  | n + 1, s => do
    let v ← removable? s k
    return v :: (← g.simplify? k n (g.remove s v))

/-- The least color below `k` that is not taken. -/
def leastFree? (k : Nat) (taken : List Nat) : Option Nat :=
  (List.range (min k (taken.length + 1))).find? (· ∉ taken)

/-- Colors the nodes of a list, the last one first. -/
def select? (g : Interference) (k : Nat) : List String → Option (Std.ExtTreeMap String Nat)
  | [] => some ∅
  | v :: vs => do
    let colors ← g.select? k vs
    let color ← leastFree? k ((g.neighborList v).filterMap (colors[·]?))
    return colors.insert v color

/-- Colors the graph with `k` colors, if simplification empties it. -/
def coloring? (g : Interference) (k : Nat) : Option Coloring := do
  let removed ← g.simplify? k g.size g.whole
  let colors ← g.select? k removed
  return { k, colors }

/-- Colors the graph with the least number of colors for which that works. With
    as many colors as nodes it always does. -/
def leastColoring (g : Interference) : Coloring :=
  ((List.range' 1 g.size).findSome? g.coloring?).getD { k := 0, colors := ∅ }

end Interference

end Midend
