import Midend.Error
import Midend.Text.Decimal

/-!
# Literals

The values that are known outright: signed 32-bit integers and truth values.
-/

namespace Midend

/-- A constant of the program. -/
inductive Literal
  | int (value : Int32)
  | bool (value : Bool)
  deriving DecidableEq, Repr

/-- The text of a truth value. -/
def boolText (b : Bool) : String := if b then "true" else "false"

/-- The truth value that a text writes. -/
def readBool? : String → Option Bool
  | "true" => some true
  | "false" => some false
  | _ => none

namespace Literal

/-- The text of a literal: a truth value by its name, an integer in decimal. -/
def text : Literal → String
  | int v => Decimal.text v.toInt
  | bool b => boolText b

/-- Reads a literal. -/
def parse (s : String) : Except Error Literal :=
  match readBool? s, Decimal.readInt32? s with
  | some b, _ => .ok (bool b)
  | none, some v => .ok (int v)
  | none, none => .error (.malformed (.notLiteral s))

end Literal

end Midend
