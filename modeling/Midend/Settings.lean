import Std.Data.ExtTreeMap
import Midend.Error
import Midend.Text.Blank
import Midend.Text.Decimal

/-!
# Settings

Two options select what is optimized: whether constants are folded and
propagated through the tree, and how many registers a method may use. They are
read from a configuration of texts by key; an option that is absent keeps its
default, which optimizes nothing.
-/

namespace Midend

/-- How many registers a method may use. -/
inductive Budget
  /-- As few as the coloring of its locals finds. -/
  | minimal
  /-- At most `n`, those of the receiver and the parameters included. -/
  | atMost (n : Nat)
  deriving DecidableEq, Repr

/-- The budget that a number stands for: zero asks for as few registers as
    possible, a positive number is a bound, and a negative one leaves the
    registers alone. -/
def Budget.ofCount? (n : Int) : Option Budget :=
  if n = 0 then some .minimal else if 0 < n then some (.atMost n.toNat) else none

/-- Texts by key. -/
abbrev Config := Std.ExtTreeMap String String

/-- What to optimize. -/
structure Settings where
  /-- Fold and propagate constants. -/
  optimize : Bool := false
  /-- The registers of each method, if they are to be assigned anew. -/
  registers : Option Budget := none
  deriving DecidableEq, Repr

namespace Settings

/-- The key of the option that turns on the passes over trees. -/
def optimizeKey : String := "optimize"

/-- The key of the option that gives the budget of registers. -/
def registersKey : String := "registerAllocation"

/-- Reads the option that turns on the passes over trees. Blanks around the
    text do not count, and an empty text means no. -/
def readOptimize : Option String → Except Error Bool
  | none => .ok false
  | some text =>
    match Text.trim text with
    | "" => .ok false
    | "false" => .ok false
    | "true" => .ok true
    | other => .error (.invalidOption optimizeKey other)

/-- Reads the option that gives the budget of registers. Blanks around the
    number do not count, but an error shows them. -/
def readRegisters : Option String → Except Error (Option Budget)
  | none => .ok none
  | some text =>
    match Decimal.readInt64? (Text.trim text) with
    | some n => .ok (Budget.ofCount? n)
    | none => .error (.invalidOption registersKey text)

/-- Reads the settings from a configuration. -/
def ofConfig (config : Config) : Except Error Settings := do
  let optimize ← readOptimize config[optimizeKey]?
  let registers ← readRegisters config[registersKey]?
  return { optimize, registers }

/-- Whether there is anything to do. -/
def enabled (s : Settings) : Bool := s.optimize || s.registers.isSome

end Settings

end Midend
