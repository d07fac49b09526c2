import Midend.Operator
import Midend.Text.Decimal

/-!
# Instructions

Three-address code: an instruction reads operands, which are constants,
variables or array elements, and computes, stores, calls or passes control to
another place of the method, named by a label.

An assignment holds the instruction that computes the assigned value, and a
branch the instruction that computes its test.
-/

namespace Midend

/-- What an instruction reads. -/
inductive Operand
  /-- A constant; truth values are `0` and `1`. -/
  | const (value : Int32)
  /-- A local, a parameter, the receiver or a field. -/
  | var (name : String)
  /-- An element of an array. -/
  | element (array : String) (index : Operand)
  deriving DecidableEq, Repr

namespace Operand

/-- Whether the operand is a constant. -/
def isConst : Operand → Bool
  | const _ => true
  | _ => false

/-- The variable, if the operand is one. -/
def var? : Operand → Option String
  | var name => some name
  | _ => none

/-- The variables that are read to get the value: for an array element, the
    array and those of the index. -/
def reads : Operand → List String
  | const _ => []
  | var name => [name]
  | element array index => array :: index.reads

/-- The text of an operand. -/
def text : Operand → String
  | const v => Decimal.text v.toInt
  | var name => name
  | element array index => array ++ "[" ++ index.text ++ "]"

end Operand

/-- How an instruction passes control on. -/
inductive Flow
  /-- Leaves the method. -/
  | leave
  /-- Goes on at the label. -/
  | jump (label : String)
  /-- Goes on at the label or with the next instruction. -/
  | fork (label : String)
  /-- Goes on with the next instruction. -/
  | next
  deriving DecidableEq, Repr

/-- A step of a method. -/
inductive Instruction
  /-- Stores the value of an instruction in a variable or an array element. -/
  | assign (target : Operand) (value : Instruction)
  /-- Calls a method; the receiver, if there is one, is the first operand. -/
  | call (method : String) (operands : List Operand)
  /-- Returns from the method, with a value or without. -/
  | ret (value : Option Operand)
  /-- The negation of a truth value. -/
  | not (operand : Operand)
  /-- The value of an operator. -/
  | binary (op : Operator) (lhs rhs : Operand)
  /-- The value of an operand. -/
  | single (operand : Operand)
  /-- Stores a value in a field of an object. -/
  | putField (object : Operand) (field : String) (value : Operand)
  /-- The value of a field of an object. -/
  | getField (object : Operand) (field : String)
  /-- Goes on at the label. -/
  | goto (label : String)
  /-- Goes on at the label if the test holds. -/
  | branch (test : Instruction) (label : String)
  deriving DecidableEq, Repr

namespace Instruction

/-- How the instruction passes control on. -/
def flow : Instruction → Flow
  | ret _ => .leave
  | goto label => .jump label
  | branch _ label => .fork label
  | _ => .next

/-- The variable that the instruction assigns. A store into a field or an array
    element assigns no variable. -/
def writes? : Instruction → Option String
  | assign target _ => target.var?
  | _ => none

/-- The variables whose value the instruction reads. A store into an array
    element reads the array and the index; the object of a field access does not
    count. -/
def reads : Instruction → List String
  | assign (.element array index) value => (Operand.element array index).reads ++ value.reads
  | assign _ value => value.reads
  | call _ operands => operands.flatMap Operand.reads
  | ret value => (value.map Operand.reads).getD []
  | not operand => operand.reads
  | binary _ lhs rhs => lhs.reads ++ rhs.reads
  | single operand => operand.reads
  | putField _ _ value => value.reads
  | getField _ _ => []
  | goto _ => []
  | branch test _ => test.reads

/-- A keyword, filled up with blanks to the column where its operands start. -/
def keyword (word : String) : String := word ++ .ofList (List.replicate (9 - word.length) ' ')

/-- The text of an instruction. -/
def text : Instruction → String
  | assign target value => target.text ++ " := " ++ value.text
  | call method operands =>
    keyword "call" ++ method ++ "(" ++ ", ".intercalate (operands.map Operand.text) ++ ")"
  | ret (some value) => keyword "ret" ++ value.text
  | ret none => "ret"
  | not operand => "!" ++ operand.text
  | binary op lhs rhs => lhs.text ++ " " ++ op.symbol ++ " " ++ rhs.text
  | single operand => operand.text
  | putField object field value =>
    keyword "putfield" ++ object.text ++ "." ++ field ++ ", " ++ value.text
  | getField object field => keyword "getfield" ++ object.text ++ "." ++ field
  | goto label => keyword "goto" ++ label
  | branch test label => keyword "if" ++ "(" ++ test.text ++ ") " ++ label

end Instruction

end Midend
