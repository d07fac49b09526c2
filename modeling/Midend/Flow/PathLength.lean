import Midend.Flow.Analysis

/-!
# Lengths of paths

The number of instructions on the longest path that leads to an instruction, up
to a cap, which a loop reaches.
-/

namespace Midend.PathLength

/-- The analysis that counts instructions along paths, up to a cap. -/
def analysis (direction : Direction) (cap : Nat) : Analysis Nat where
  direction
  initial := 0
  transfer _ n := min (n + 1) cap
  meet := List.foldl max 0

/-- The number of passes that always suffices: the two counts of an instruction
    only grow, at most to the cap, and the last pass changes nothing. -/
def passLimit (g : FlowGraph) (cap : Nat) : Nat := 2 * g.size * cap + 1

/-- The counts of all instructions. -/
def solve (direction : Direction) (g : FlowGraph) (cap : Nat) : Facts Nat :=
  let a := analysis direction cap
  (a.solve? g (passLimit g cap)).getD (a.start g)

end Midend.PathLength
