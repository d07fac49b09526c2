import Midend.Tree.Forest

/-!
# Printing

A forest prints as its program, one node a line, indented by two blanks for
each level below the root. An expression prints in source form.
-/

namespace Midend

/-- The source form of an expression of this kind, given its operands and how they
    show. An operand that is missing shows as a question mark. -/
def Kind.sourceText {α : Type} (text : α → String) (operands : List α) : Kind → String :=
  let operand (i : Nat) := (operands[i]?.map text).getD "?"
  fun
  | .integer v => Decimal.text v.toInt
  | .boolean b => boolText b
  | .identifier name => name
  | .this => "this"
  | .parentheses => "(" ++ operand 0 ++ ")"
  | .negation => "!" ++ operand 0
  | .arithmetic op => operand 0 ++ " " ++ op.symbol ++ " " ++ operand 1
  | .comparison op => operand 0 ++ " " ++ op.symbol ++ " " ++ operand 1
  | .logical op => operand 0 ++ " " ++ op.symbol ++ " " ++ operand 1
  | .arrayAccess => operand 0 ++ "[" ++ operand 1 ++ "]"
  | .length => operand 0 ++ ".length"
  | .newIntArray => "new int[" ++ operand 0 ++ "]"
  | .newObject className => "new " ++ className ++ "()"
  | .call callee =>
    operand 0 ++ "." ++ callee ++ "(" ++ ", ".intercalate ((operands.drop 1).map text) ++ ")"
  | kind => kind.label

namespace Forest

/-- The line of a node, `level` levels below the root. -/
def line (f : Forest) (level : Nat) (id : NodeId) : String :=
  .ofList (List.replicate (2 * level) ' ') ++ ((f.kind? id).map Kind.text).getD "" ++ "\n"

/-- The lines of a subtree down to depth `n`. -/
def linesWithin (f : Forest) : Nat → Nat → NodeId → List String
  | 0, _, _ => []
  | n + 1, level, id => f.line level id :: (f.children id).flatMap (f.linesWithin n (level + 1))

/-- The text of the program. -/
def render (f : Forest) : String := .join (f.linesWithin f.size 0 f.root)

/-- The source form of an expression, of which it shows `n` levels. -/
def sourceTextWithin (f : Forest) : Nat → NodeId → String
  | 0, _ => "?"
  | n + 1, id =>
    match f.kind? id with
    | none => "?"
    | some kind => kind.sourceText (f.sourceTextWithin n) (f.children id)

/-- The source form of an expression. -/
def sourceText (f : Forest) (id : NodeId) : String := f.sourceTextWithin f.size id

end Forest

end Midend
