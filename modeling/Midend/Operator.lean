import Midend.Error
import Midend.Vocabulary

/-!
# Operators

The binary operators of expressions, in three families: arithmetic on signed
32-bit integers, comparison of them, and logic on truth values. Each has a
symbol by which it is written and read, and a value on two constants. No symbol
stands for two operators.

Arithmetic wraps around modulo 2^32. Division truncates towards zero and has
no value when the divisor is zero; the least integer divided by `-1` wraps to
itself.
-/

namespace Midend

/-- A family of operators, each of which is written by a symbol. -/
structure OperatorFamily (α : Type) extends Vocabulary α where
  /-- The name of the family, which errors show. -/
  name : String

namespace OperatorFamily

variable {α : Type} (F : OperatorFamily α)

/-- Reads an operator. -/
def parse (s : String) : Except Error α :=
  match F.find? s with
  | some op => .ok op
  | none => .error (.malformed (.unknownOperator F.name s))

/-- An operator is read exactly from its symbol. -/
theorem parse_eq_ok_iff {s : String} {op : α} : F.parse s = .ok op ↔ s = F.text op := by
  rw [← F.find?_eq_some_iff, parse]
  cases F.find? s <;> simp

end OperatorFamily

/-- The arithmetic operators. -/
inductive Arith
  | add
  | sub
  | mul
  | div
  deriving DecidableEq, Repr

namespace Arith

/-- How the operator is written. -/
def symbol : Arith → String
  | add => "+"
  | sub => "-"
  | mul => "*"
  | div => "/"

/-- The family of the arithmetic operators. -/
def family : OperatorFamily Arith where
  all := [add, sub, mul, div]
  text := symbol
  mem_all op := by cases op <;> decide
  eq_of_text_eq {op op'} := by cases op <;> cases op' <;> decide
  name := "ArithOp"

/-- The value of the operator on two integers; none when it divides by zero. -/
def eval? : Arith → Int32 → Int32 → Option Int32
  | add, x, y => some (x + y)
  | sub, x, y => some (x - y)
  | mul, x, y => some (x * y)
  | div, x, y => if y = 0 then none else some (x / y)

end Arith

/-- The comparison operators. -/
inductive Compare
  | less
  | greater
  deriving DecidableEq, Repr

namespace Compare

/-- How the operator is written. -/
def symbol : Compare → String
  | less => "<"
  | greater => ">"

/-- The family of the comparison operators. -/
def family : OperatorFamily Compare where
  all := [less, greater]
  text := symbol
  mem_all op := by cases op <;> decide
  eq_of_text_eq {op op'} := by cases op <;> cases op' <;> decide
  name := "CmpOp"

/-- The value of the operator on two integers. -/
def eval : Compare → Int32 → Int32 → Bool
  | less, x, y => decide (x < y)
  | greater, x, y => decide (y < x)

end Compare

/-- The logical operators. -/
inductive Logic
  | and
  | or
  deriving DecidableEq, Repr

namespace Logic

/-- How the operator is written. -/
def symbol : Logic → String
  | and => "&&"
  | or => "||"

/-- The family of the logical operators. -/
def family : OperatorFamily Logic where
  all := [and, or]
  text := symbol
  mem_all op := by cases op <;> decide
  eq_of_text_eq {op op'} := by cases op <;> cases op' <;> decide
  name := "LogicOp"

/-- The value of the operator on two truth values. -/
def eval : Logic → Bool → Bool → Bool
  | and, x, y => x && y
  | or, x, y => x || y

end Logic

/-- The operators of all three families. -/
inductive Operator
  | arith (op : Arith)
  | compare (op : Compare)
  | logic (op : Logic)
  deriving DecidableEq, Repr

namespace Operator

/-- How the operator is written. -/
def symbol : Operator → String
  | arith op => op.symbol
  | compare op => op.symbol
  | logic op => op.symbol

/-- The operator written by a symbol. -/
def ofSymbol? (s : String) : Option Operator :=
  (Arith.family.find? s).map arith <|> (Compare.family.find? s).map compare <|>
    (Logic.family.find? s).map logic

/-- Reading what was written gives back the operator. -/
@[simp] theorem ofSymbol?_symbol (op : Operator) : ofSymbol? op.symbol = some op := by
  rcases op with op | op | op <;> cases op <;> rfl

end Operator

end Midend
