import Midend.Constant.Branch
import Midend.Constant.Known
import Midend.NameSet
import Midend.Tree.Walk

/-!
# Constant propagation

Propagation replaces the uses of a local variable by its value where that is
known. What is known goes through the statements of a method in order: an
assignment of a literal makes its variable known, any other assignment makes it
unknown. The branches of a conditional both start with what is known before it,
and after it holds what they agree on. A loop first forgets the variables that
are assigned in it, since its test and its body see the values of every
iteration.

Only the variables that a method declares are ever known; any other name is a
field, which a call may change. Each method is treated on its own.

A test that becomes a literal settles its conditional or loop as folding does.
-/

namespace Midend

namespace Forest

/-- The names of the locals and parameters that are declared in a subtree. -/
def declared (f : Forest) (id : NodeId) : NameSet :=
  .of <| (f.preorder id).filterMap fun n =>
    match f.kind? n with
    | some (.varDecl name _) => some name
    | some (.param name _) => some name
    | _ => none

/-- The variables that are assigned in a subtree. -/
def assigned (f : Forest) (id : NodeId) : List String :=
  (f.preorder id).filterMap fun n =>
    match f.kind? n with
    | some (.assignment target) => some target
    | _ => none

/-- The method declarations of the program, in preorder. -/
def methods (f : Forest) : List NodeId :=
  f.program.filter fun n => (f.kind? n).any Kind.isMethod

end Forest

namespace Edit

/-- Replaces the known variables in an expression of at most the given depth by
    their values, and tells whether there were any. -/
def substitute (known : Known) : Nat → NodeId → Edit Bool
  | 0, id => throw (.circular id)
  | depth + 1, id => do
    let f ← get
    match f.kind? id with
    | some (.identifier name) =>
      match known[name]? with
      | some l =>
        replaceByLiteral id l
        return true
      | none => return false
    | _ => visitAll (substitute known depth) (f.children id)

/-- Visits statements in order, each with what is known after the one before,
    and tells whether any visit made a change. -/
def inOrder (visit : Known → NodeId → Edit (Known × Bool)) :
    Known → List NodeId → Edit (Known × Bool)
  | known, [] => return (known, false)
  | known, id :: ids => do
    let (known, here) ← visit known id
    let (known, there) ← inOrder visit known ids
    return (known, here || there)

/-- Goes through an assignment, given how to treat its expression. -/
def propagateAssignment (expr : NodeId → Edit Bool) (locals : NameSet) (known : Known)
    (target : String) (id : NodeId) : Edit (Known × Bool) := do
  let changed ← expr (← ask (·.child id 0))
  if target ∈ locals then
    let value ← ask (·.child id 0)
    match (← get).literal? value with
    | some l => return (known.insert target l, changed)
    | none => return (known.erase target, changed)
  else
    return (known, changed)

/-- Goes through a conditional, given how to treat its test and its
    branches. -/
def propagateConditional (expr : NodeId → Edit Bool)
    (stmt : Known → NodeId → Edit (Known × Bool)) (known : Known) (id : NodeId) :
    Edit (Known × Bool) := do
  let changed ← expr (← ask (·.child id 0))
  match ← ask (·.testValue id) with
  | some taken =>
    let index := branchIndex taken
    -- As in folding, the branch is read again after the visit.
    let known ← match ((← get).children id)[index]? with
      | some branch => Prod.fst <$> stmt known branch
      | none => pure known
    giveWay id ((← get).children id)[index]?
    return (known, true)
  | none =>
    let (known₁, changed₁) ← stmt known (← ask (·.child id 1))
    let (known₂, changed₂) ← match ((← get).children id)[2]? with
      | some branch => stmt known branch
      | none => pure (known, false)
    return (known₁.meet known₂, changed || changed₁ || changed₂)

/-- Goes through a loop, given how to treat its test and its body. -/
def propagateLoop (expr : Known → NodeId → Edit Bool)
    (stmt : Known → NodeId → Edit (Known × Bool)) (known : Known) (id : NodeId) :
    Edit (Known × Bool) := do
  let known := known.forget ((← get).assigned id)
  let changed ← expr known (← ask (·.child id 0))
  if (← ask (·.testValue id)) = some false then
    giveWay id none
    return (known, true)
  let (_, inside) ← stmt known (← ask (·.child id 1))
  return (known, changed || inside)

/-- Goes through a statement of at most the given depth with what is known
    before it. The result is what is known after it, and whether anything
    changed. -/
def propagateWithin (locals : NameSet) : Nat → Known → NodeId → Edit (Known × Bool)
  | 0, _, id => throw (.circular id)
  | depth + 1, known, id => do
    let f ← get
    match f.kind? id with
    | some .block => inOrder (propagateWithin locals depth) known (f.children id)
    | some (.assignment target) =>
      propagateAssignment (substitute known depth) locals known target id
    | some .conditional =>
      propagateConditional (substitute known depth) (propagateWithin locals depth) known id
    | some .loop =>
      propagateLoop (substitute · depth) (propagateWithin locals depth) known id
    | some (.varDecl _ _) => return (known, false)
    | some (.param _ _) => return (known, false)
    | _ =>
      let changed ← visitAll (substitute known depth) (f.children id)
      return (known, changed)

/-- Propagates constants through a method, of whose locals nothing is known at
    first: what was known before it is cleared. -/
def propagateMethod (known : Known) (method : NodeId) : Edit (Known × Bool) := do
  let f ← get
  inOrder (propagateWithin (f.declared method) f.size) known.clear (f.children method)

/-- Propagates constants through the methods of the program, and tells whether
    anything changed. -/
def propagateProgram : Edit Bool := do
  let (_, changed) ← inOrder propagateMethod ∅ (← get).methods
  return changed

end Edit

end Midend
