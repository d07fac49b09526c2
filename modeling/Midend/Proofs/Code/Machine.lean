import Mathlib.Logic.Function.Basic
import Midend.Code.Method

/-!
# Running a method

A machine runs the instructions of a method one after the other. It keeps the
variables of the method, those that are no fields, in slots: where the slot of a
variable is, is a parameter of the machine, so that the same machine may keep
them by name or in the registers that the method gives them.

Everything else is the *surroundings*: the values and operators, and a world that
has the fields, the contents of arrays and the names that are not declared, and
that calls may change at will. The surroundings are arbitrary; an operation of
theirs may also have no result, and then the run fails.
-/

namespace Midend

/-- Values in `ν`, and what happens in a world in `ω`. -/
structure Surroundings (ν ω : Type) where
  /-- The value of a constant. -/
  const : Int32 → ν
  /-- Whether a value, as the test of a branch, holds. -/
  holds : ν → Bool
  /-- The negation of a value. -/
  not : ν → Option ν
  /-- The value of an operator. -/
  binary : Operator → ν → ν → Option ν
  /-- The result of a call. -/
  call : String → List ν → ω → Option (ν × ω)
  /-- A field of an object. -/
  field : ν → String → ω → Option ν
  /-- A store into a field of an object. -/
  setField : ν → String → ν → ω → Option ω
  /-- An element of an array. -/
  element : ν → ν → ω → Option ν
  /-- A store into an element of an array. -/
  setElement : ν → ν → ν → ω → Option ω
  /-- The value of a name that holds no register. -/
  name : String → ω → Option ν
  /-- A store into a name that holds no register. -/
  setName : String → ν → ω → Option ω

/-- A state of the machine, with slots in `κ`. -/
inductive MachineState (κ ν ω : Type)
  /-- The instruction at an index is next. -/
  | running (index : Nat) (store : κ → ν) (world : ω)
  /-- The method was left, with a value or without. -/
  | left (value : Option ν) (world : ω)
  /-- An operation had no result. -/
  | failed (world : ω)

/-- The value with which the method was left, and the world then. -/
def MachineState.left? {κ ν ω : Type} : MachineState κ ν ω → Option (Option ν × ω)
  | left v w => some (v, w)
  | _ => none

/-- A method on a machine: where its variables are, and what surrounds it. -/
structure Machine (κ ν ω : Type) where
  /-- The method. -/
  method : Method
  /-- The slot of each variable. -/
  slot : String → κ
  /-- What surrounds it. -/
  surroundings : Surroundings ν ω

namespace Machine

variable {κ ν ω : Type} (c : Machine κ ν ω)

/-- The value of a name. -/
def name (s : κ → ν) (w : ω) (x : String) : Option ν :=
  if c.method.holdsRegister x then some (s (c.slot x)) else c.surroundings.name x w

/-- The value of an operand. -/
def operand (s : κ → ν) (w : ω) : Operand → Option ν
  | .const v => some (c.surroundings.const v)
  | .var x => c.name s w x
  | .element array index => do
    c.surroundings.element (← c.name s w array) (← operand s w index) w

/-- The value of an instruction that computes one, and the world after it. -/
def value (s : κ → ν) (w : ω) : Instruction → Option (ν × ω)
  | .call method operands => do
    c.surroundings.call method (← operands.mapM (c.operand s w)) w
  | .not x => do return (← c.surroundings.not (← c.operand s w x), w)
  | .binary op x y => do
    return (← c.surroundings.binary op (← c.operand s w x) (← c.operand s w y), w)
  | .single x => do return (← c.operand s w x, w)
  | .getField object field => do
    return (← c.surroundings.field (← c.operand s w object) field w, w)
  | _ => none

/-- The world after a store into something that is in no slot. A constant keeps
    nothing. -/
def storeOutside (s : κ → ν) (w : ω) (v : ν) : Operand → Option ω
  | .const _ => some w
  | .var x => c.surroundings.setName x v w
  | .element array index => do
    c.surroundings.setElement (← c.name s w array) (← c.operand s w index) v w

variable [DecidableEq κ]

/-- Stores a value in the target of an assignment. -/
def store (s : κ → ν) (w : ω) (v : ν) (target : Operand) : Option ((κ → ν) × ω) :=
  match target.var?.filter c.method.holdsRegister with
  | some x => some (Function.update s (c.slot x) v, w)
  | none => (c.storeOutside s w v target).map (s, ·)

/-- What an instruction leads to, if all its operations have a result. -/
def execute (index : Nat) (s : κ → ν) (w : ω) : Instruction → Option (MachineState κ ν ω)
  | .assign target value => do
    let (v, w) ← c.value s w value
    let (s, w) ← c.store s w v target
    return .running (index + 1) s w
  | .ret none => return .left none w
  | .ret (some x) => do return .left (some (← c.operand s w x)) w
  | .putField object field x => do
    let w ← c.surroundings.setField (← c.operand s w object) field (← c.operand s w x) w
    return .running (index + 1) s w
  | .goto label => do return .running (← c.method.labels[label]?) s w
  | .branch test label => do
    let (v, w) ← c.value s w test
    let target ← c.method.labels[label]?
    return .running (if c.surroundings.holds v then target else index + 1) s w
  | value => do
    let (_, w) ← c.value s w value
    return .running (index + 1) s w

/-- A step: the next instruction, if there is one; the method is left where the
    code ends. -/
def step : MachineState κ ν ω → MachineState κ ν ω
  | .running index s w =>
    match c.method.code[index]? with
    | some i => (c.execute index s w i).getD (.failed w)
    | none => .left none w
  | state => state

/-- The state after a number of steps. -/
def run : Nat → MachineState κ ν ω → MachineState κ ν ω
  | 0, state => state
  | n + 1, state => run n (c.step state)

end Machine

end Midend
