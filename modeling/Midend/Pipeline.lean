import Midend.Constant.Rounds
import Midend.Register.Allocation

/-!
# The two halves

The settings say what happens to a program: whether constants are folded and
propagated through its tree, and whether the methods made from it get their
registers anew.
-/

namespace Midend.Settings

/-- Optimizes a tree, if that is turned on, and tells the number of rounds. -/
def optimizeTree (s : Settings) : Edit Nat :=
  if s.optimize then Edit.optimize else return 0

/-- Allocates registers for methods, if there is a budget. The result has the
    allocations or the first error, and the methods as they are afterwards. -/
def optimizeCode (s : Settings) (methods : List Method) :
    Except Error (List Allocation) × List Method :=
  match s.registers with
  | none => (.ok [], methods)
  | some budget => Method.allocateAll budget methods

end Midend.Settings
