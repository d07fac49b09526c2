import Midend.Literal
import Midend.Operator

/-!
# Kinds of nodes

A node of a syntax tree has a kind, which says what it stands for and carries
its attributes. What its children mean depends on the kind:

* the children of a method are its parameters, its local declarations and its
  statements, those of a block its statements;
* a conditional has its test, the branch taken when the test holds, and
  optionally the other branch; a loop has its test and its body;
* an assignment has the assigned expression, an assignment to an array element
  the index and the expression;
* a call has its receiver and then its arguments; the other expressions have
  their operands.

Nothing here enforces this: a node of any kind may have any children.
-/

namespace Midend

/-- What a node of a syntax tree stands for. -/
inductive Kind
  | program
  | importDecl (path : String)
  | classDecl (name : String) (superclass : Option String)
  | varDecl (name type : String)
  | param (name type : String)
  | method (name : String)
  | voidMethod (name : String)
  | mainMethod
  | block
  | conditional
  | loop
  | exprStmt
  | returnStmt
  | assignment (target : String)
  | arrayAssignment (target : String)
  | parentheses
  | negation
  | arithmetic (op : Arith)
  | comparison (op : Compare)
  | logical (op : Logic)
  | arrayAccess
  | length
  | call (callee : String)
  | newObject (className : String)
  | newIntArray
  | this
  | integer (value : Int32)
  | boolean (value : Bool)
  | identifier (name : String)
  deriving DecidableEq, Repr

namespace Kind

/-- The label of a kind. -/
def label : Kind → String
  | program => "Program"
  | importDecl _ => "ImportDecl"
  | classDecl _ _ => "ClassDecl"
  | varDecl _ _ => "VarDecl"
  | param _ _ => "Param"
  | method _ => "MethodDecl"
  | voidMethod _ => "VoidMethodDecl"
  | mainMethod => "MainMethodDecl"
  | block => "CodeBlock"
  | conditional => "Condition"
  | loop => "Cycle"
  | exprStmt => "ExprStmt"
  | returnStmt => "ReturnStmt"
  | assignment _ => "Assignment"
  | arrayAssignment _ => "ArrayAssignment"
  | parentheses => "ParenthesesExpr"
  | negation => "NegationExpr"
  | arithmetic _ => "ArithmeticExpr"
  | comparison _ => "ComparisonExpr"
  | logical _ => "LogicalExpr"
  | arrayAccess => "ArrayAccess"
  | length => "Length"
  | call _ => "MethodCall"
  | newObject _ => "NewObject"
  | newIntArray => "NewIntArray"
  | this => "This"
  | integer _ => "Integer"
  | boolean _ => "Boolean"
  | identifier _ => "Identifier"

/-- The kind of a node that holds a literal. -/
def ofLiteral : Literal → Kind
  | .int v => integer v
  | .bool b => boolean b

/-- The literal that a node of this kind holds. -/
def literal? : Kind → Option Literal
  | integer v => some (.int v)
  | boolean b => some (.bool b)
  | _ => none

@[simp] theorem literal?_ofLiteral (l : Literal) : (ofLiteral l).literal? = some l := by
  cases l <;> rfl

/-- The name of a method declaration. -/
def methodName? : Kind → Option String
  | method name => some name
  | voidMethod name => some name
  | mainMethod => some "main"
  | _ => none

/-- Whether this is a method declaration. -/
def isMethod (k : Kind) : Bool := k.methodName?.isSome

/-- Whether the children form a list of statements, in which one statement may
    give way to several. -/
def holdsStatements (k : Kind) : Bool := k = block || k.isMethod

/-- What a kind shows of its attributes. -/
def detail? : Kind → Option String
  | importDecl path => some path
  | classDecl name _ => some name
  | varDecl name type => some s!"{type} {name}"
  | param name type => some s!"{type} {name}"
  | method name => some name
  | voidMethod name => some name
  | assignment target => some target
  | arrayAssignment target => some target
  | arithmetic op => some op.symbol
  | comparison op => some op.symbol
  | logical op => some op.symbol
  | call callee => some callee
  | newObject className => some className
  | integer v => some (Decimal.text v.toInt)
  | boolean b => some (boolText b)
  | identifier name => some name
  | _ => none

/-- The text of a kind: its label, and in parentheses what it shows of its
    attributes. -/
def text (k : Kind) : String :=
  match k.detail? with
  | some detail => s!"{k.label}({detail})"
  | none => k.label

end Kind

end Midend
