import Midend.Tree.Edit

/-!
# Settled conditionals

A conditional or a loop is settled when its test is a literal. A settled
conditional gives way to the branch that is taken, and a loop that is never
entered to nothing.

How a statement gives way depends on where it stands. In a list of statements a
block is dissolved into its statements, and nothing leaves nothing behind.
Anywhere else, as the branch of another conditional or the body of a loop, the
place keeps exactly one node: the branch as it is, or an empty block.
-/

namespace Midend

/-- The value of the test of a conditional or a loop, if it is a literal. An
    integer is no truth value. -/
def Forest.testValue (f : Forest) (id : NodeId) : Except Error (Option Bool) := do
  let test ← f.child id 0
  match f.literal? test with
  | some (.bool b) => return some b
  | some (.int v) =>
    let label := ((f.kind? id).map Kind.label).getD ""
    .error (.malformed (.integerCondition label id v))
  | none => return none

/-- The place among the children of a conditional of the branch that is taken. -/
def branchIndex (test : Bool) : Nat := if test then 1 else 2

/-- Whether a node stands in a list of statements. -/
def Forest.amongStatements (f : Forest) (id : NodeId) : Bool :=
  ((f.parent? id).bind f.kind?).any Kind.holdsStatements

namespace Edit

/-- Lets a statement give way to its branch, or to nothing. -/
def giveWay (stmt : NodeId) (branch : Option NodeId) : Edit Unit := do
  let f ← get
  match branch, f.amongStatements stmt with
  | some b, true =>
    if f.kind? b = some .block then splice stmt (f.children b) else replace stmt b
  | some b, false => replace stmt b
  | none, true => delete stmt
  | none, false => do replace stmt (← leaf .block)

end Edit

end Midend
