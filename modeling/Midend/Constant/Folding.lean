import Midend.Constant.Branch
import Midend.Tree.Printer

/-!
# Constant folding

Folding computes what is constant and settles what thereby becomes settled.
An expression whose operands are literals is replaced by its value, operands
before the expression they belong to. A conditional whose test is a literal
gives way to the branch that is taken, and a loop whose test is false to
nothing; the branch that is not taken and the body that is never entered are
not looked at.

Folding stops at a division by zero and at a test that is an integer. What it
folded up to then stays folded.
-/

namespace Midend

/-- The value of an expression whose operands are literals. The name of the
    enclosing method is for the error. -/
def Forest.foldedValue (f : Forest) (method : String) (id : NodeId) :
    Except Error (Option Literal) :=
  let operand (i : Nat) := (f.children id)[i]?.bind f.literal?
  match f.kind? id, operand 0, operand 1 with
  | some .parentheses, some l, _ => .ok (some l)
  | some .negation, some (.bool b), _ => .ok (some (.bool !b))
  | some (.arithmetic op), some (.int x), some (.int y) =>
    match op.eval? x y with
    | some v => .ok (some (.int v))
    | none => .error (.divisionByZero method (f.sourceText id))
  | some (.comparison op), some (.int x), some (.int y) => .ok (some (.bool (op.eval x y)))
  | some (.logical op), some (.bool x), some (.bool y) => .ok (some (.bool (op.eval x y)))
  | _, _, _ => .ok none

namespace Edit

/-- Folds a conditional, given how to fold the nodes below it: the test first,
    then the branch that is taken, or both when that is not settled. -/
def foldConditional (fold : NodeId → Edit Bool) (id : NodeId) : Edit Bool := do
  let test ← ask (·.child id 0)
  let changed ← fold test
  match ← ask (·.testValue id) with
  | some taken =>
    let index := branchIndex taken
    -- Folding the branch may put another node in its place, so the place is read again.
    if let some branch := ((← get).children id)[index]? then
      discard <| fold branch
    giveWay id ((← get).children id)[index]?
    return true
  | none =>
    let branches ← visitAll fold (((← get).children id).drop 1)
    return changed || branches

/-- Folds a loop, given how to fold the nodes below it: the test, and the body
    unless it is never entered. -/
def foldLoop (fold : NodeId → Edit Bool) (id : NodeId) : Edit Bool := do
  let test ← ask (·.child id 0)
  let changed ← fold test
  if (← ask (·.testValue id)) = some false then
    giveWay id none
    return true
  let body ← ask (·.child id 1)
  let inside ← fold body
  return changed || inside

/-- Folds a subtree of at most the given depth, and tells whether anything
    changed. -/
def foldWithin : Nat → String → NodeId → Edit Bool
  | 0, _, id => throw (.circular id)
  | depth + 1, method, id => do
    match (← get).kind? id with
    | some .conditional => foldConditional (foldWithin depth method) id
    | some .loop => foldLoop (foldWithin depth method) id
    | kind =>
      let method := (kind.bind Kind.methodName?).getD method
      let changed ← visitAll (foldWithin depth method) ((← get).children id)
      match ← ask (·.foldedValue method id) with
      | some l =>
        replaceByLiteral id l
        return true
      | none => return changed

/-- What errors show for the name of the method outside of all methods. -/
def outsideMethods : String := "<none>"

/-- Folds the constants of the program, and tells whether anything changed. -/
def foldProgram : Edit Bool := do
  let f ← get
  foldWithin f.size outsideMethods f.root

end Edit

end Midend
