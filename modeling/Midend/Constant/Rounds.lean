import Midend.Constant.Folding
import Midend.Constant.Propagation

/-!
# Rounds

Folding and propagation make work for each other: propagation puts literals
where they can be folded, and folding makes literals that can be propagated. A
round does one after the other, and rounds are repeated until one changes
nothing.

Each round that changes something leaves fewer nodes in the program, or as many
nodes and fewer identifiers among them, which bounds the number of rounds.
-/

namespace Midend

/-- The nodes of the program, identifiers counted twice. -/
def Forest.weight (f : Forest) : Nat :=
  f.program.length +
    f.program.countP fun n =>
      match f.kind? n with
      | some (.identifier _) => true
      | _ => false

namespace Edit

/-- Folds and then propagates, and tells whether anything changed. -/
def round : Edit Bool := do
  let folded ← foldProgram
  let propagated ← propagateProgram
  return folded || propagated

/-- Repeats rounds, at most `n`, until one changes nothing, and tells how many
    there were. -/
def roundsWithin : Nat → Edit Nat
  | 0 => throw .unsettled
  | n + 1 => do
    if ← round then
      return (← roundsWithin n) + 1
    else
      return 1

/-- Folds and propagates constants until nothing is left to do, and tells the
    number of rounds, the last one included. -/
def optimize : Edit Nat := do
  roundsWithin (← get).weight

end Edit

end Midend
