/-!
# Errors

What can go wrong while a program is optimized. An error is a cause, not a
text: a program may divide by a literal zero, a method may need more registers
than it is given, an option may hold a value that means nothing, and a tree or
a method may lack the shape its kinds promise, for one of the reasons listed as
a `Defect`. The wording of all of them is in `Error.message`.

Three causes are about the caller rather than the program: a node or an
instruction that is asked for does not exist, or a walk cannot end.
-/

namespace Midend

/-- Why a tree, an attribute or a method is malformed. Nodes are named by their
    number, kinds by their label. -/
inductive Defect
  /-- No operator of the family is written this way. -/
  | unknownOperator (family symbol : String)
  /-- The text is neither a truth value nor a 32-bit integer. -/
  | notLiteral (text : String)
  /-- The text of an integer node is not a 32-bit integer. -/
  | notInteger (text : String)
  /-- The text of a boolean node is not a truth value. -/
  | notBoolean (text : String)
  /-- Nodes of this kind have no attribute of this name that can be set. -/
  | noAttribute (kind name : String)
  /-- The node has too few children. -/
  | missingChild (kind : String) (node index : Nat)
  /-- The test of a conditional or a loop is an integer. -/
  | integerCondition (kind : String) (node : Nat) (value : Int32)
  /-- The node to insert is the new parent or lies above it. -/
  | insertAbove (child parent : Nat)
  /-- The place to insert at is past the end of the child list. -/
  | insertPastEnd (index parent count : Nat)
  /-- The replacement lies above the node it should replace. -/
  | replaceByAncestor (old new : Nat)
  /-- The root has no parent to be deleted from. -/
  | deleteRoot
  /-- The node to splice at has no parent. -/
  | spliceDetached (target : Nat)
  /-- One of the nodes to splice in is the target or lies above it. -/
  | spliceByAncestor (node target : Nat)
  /-- The node has a parent that does not list it. -/
  | unlistedChild (node : Nat)
  /-- A jump of the method goes to a label that it does not define. -/
  | undefinedLabel (method label : String)
  /-- A colored variable is not in the variable table. -/
  | undeclaredVariable (name : String)
  deriving DecidableEq, Repr

/-- The description of a defect. -/
def Defect.message : Defect → String
  | .unknownOperator family symbol => s!"unknown {family} '{symbol}'"
  | .notLiteral text => s!"'{text}' is not a literal"
  | .notInteger text => s!"'{text}' is not an integer"
  | .notBoolean text => s!"'{text}' is not a boolean"
  | .noAttribute kind name => s!"{kind} has no attribute '{name}'"
  | .missingChild kind node index => s!"{kind} #{node} has no child at index {index}"
  | .integerCondition kind node value => s!"{kind} #{node} has integer condition {value}"
  | .insertAbove child parent => s!"cannot insert #{child} below its own descendant #{parent}"
  | .insertPastEnd index parent count =>
    s!"insertion index {index} out of bounds for #{parent} with {count} children"
  | .replaceByAncestor old new => s!"cannot replace #{old} with its ancestor #{new}"
  | .deleteRoot => "cannot delete the root node"
  | .spliceDetached target => s!"cannot splice detached node #{target}"
  | .spliceByAncestor node target => s!"cannot splice #{node} in place of its descendant #{target}"
  | .unlistedChild node => s!"node #{node} is missing from its parent's children"
  | .undefinedLabel method label => s!"method '{method}' jumps to undefined label '{label}'"
  | .undeclaredVariable name => s!"'{name}' missing from variable table"

/-- Why an optimization stopped. -/
inductive Error
  /-- Both operands of a division are literals and the divisor is zero. -/
  | divisionByZero (method expression : String)
  /-- The locals of the method do not fit into the registers left over by the
      reserved ones. -/
  | registerPressure (method : String) (budget reserved : Nat)
  /-- A tree or a method lacks the shape its kinds promise. -/
  | malformed (defect : Defect)
  /-- An option has a value that means nothing. -/
  | invalidOption (key value : String)
  /-- There is no such node. -/
  | missingNode (node : Nat)
  /-- There is no such instruction. -/
  | missingInstruction (index : Nat)
  /-- The node lies below itself, so that a walk over its subtree cannot end. -/
  | circular (node : Nat)
  /-- A loop that should have settled did not. -/
  | unsettled
  deriving DecidableEq, Repr

/-- The wording of an error. -/
def Error.message : Error → String
  | .divisionByZero method expression =>
    s!"division by zero in constant expression '{expression}' (method '{method}')"
  | .registerPressure method budget reserved =>
    s!"method '{method}' cannot be allocated within {budget} registers " ++
      s!"({reserved} reserved for receiver and parameters)"
  | .malformed defect => s!"malformed input: {defect.message}"
  | .invalidOption key value => s!"invalid value '{value}' for option '{key}'"
  | .missingNode node => s!"there is no node #{node}"
  | .missingInstruction index => s!"there is no instruction {index}"
  | .circular node => s!"node #{node} lies below itself"
  | .unsettled => "the rounds do not settle"

end Midend
