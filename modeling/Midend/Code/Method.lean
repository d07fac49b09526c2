import Std.Data.ExtTreeMap
import Midend.Code.Instruction
import Midend.Error
import Midend.Text.Quoted

/-!
# Methods

The code of a method: its instructions, the labels that mark places among them,
and its variables, each with the register that holds it. The receiver of an
instance method and the parameters hold the first registers, which are
*reserved*; the locals come after them, at first one register each. Fields hold
no register.

A name is declared once. Declaring it again, in whatever role, changes nothing.
-/

namespace Midend

/-- The role of a variable in a method. -/
inductive Scope
  | localVar
  | parameter
  /-- The implicit receiver of an instance method. -/
  | receiver
  | field
  deriving DecidableEq, Repr

/-- What is known of a variable. -/
structure Variable where
  /-- Its role. -/
  scope : Scope
  /-- The register that holds it. -/
  register : Nat
  deriving DecidableEq, Repr

/-- The code of a method. -/
structure Method where
  /-- The name of the method. -/
  name : String
  /-- Whether the method has no receiver. -/
  isStatic : Bool
  /-- The parameters, in order. -/
  params : List String := []
  /-- The instructions, in order. -/
  code : Array Instruction := #[]
  /-- The place that each label marks: the index of the instruction after it. -/
  labels : Std.ExtTreeMap String Nat := ∅
  /-- The variables, by name. -/
  table : Std.ExtTreeMap String Variable := ∅

namespace Method

/-! ## Reading -/

/-- The number of registers for the receiver and the parameters. -/
def reserved (m : Method) : Nat := (if m.isStatic then 0 else 1) + m.params.length

/-- The local variables, by name. -/
def locals (m : Method) : List String :=
  (m.table.filter fun _ v => v.scope = .localVar).keys

/-- The locals are the variables that are declared as such. -/
theorem mem_locals {m : Method} {x : String} :
    x ∈ m.locals ↔ ∃ v, m.table[x]? = some v ∧ v.scope = .localVar := by
  rw [locals, Std.ExtTreeMap.mem_keys, Std.ExtTreeMap.mem_iff_isSome_getElem?,
    Std.ExtTreeMap.getElem?_filter']
  cases m.table[x]? <;> simp [Option.filter_some]

/-- Whether a name stands for a variable that holds a register. -/
def holdsRegister (m : Method) (name : String) : Bool :=
  m.table[name]?.any fun v => v.scope ≠ .field

/-- The instruction at an index. -/
def instruction (m : Method) (index : Nat) : Except Error Instruction :=
  match m.code[index]? with
  | some i => .ok i
  | none => .error (.missingInstruction index)

/-! ## Building -/

/-- Declares a variable, unless the name is declared already. -/
def declare (m : Method) (name : String) (scope : Scope) (register : Nat) : Method :=
  { m with table := m.table.insertIfNew name { scope, register } }

/-- The method without code. An instance method has its receiver in register
    `0`. -/
def empty (name : String) (isStatic : Bool) : Method :=
  let m : Method := { name, isStatic }
  if isStatic then m else m.declare "this" .receiver 0

/-- Moves the locals up by one register. -/
def shiftLocals (m : Method) : Method :=
  let shift (v : Variable) : Variable :=
    if v.scope = .localVar then { v with register := v.register + 1 } else v
  { m with table := m.table.map fun _ v => shift v }

/-- Declares the next parameter, for which the locals make room. -/
def declareParam (m : Method) (name : String) : Method :=
  if name ∈ m.table then m
  else { m.shiftLocals.declare name .parameter m.reserved with params := m.params ++ [name] }

/-- Declares a local, in the register after those of the other locals. -/
def declareLocal (m : Method) (name : String) : Method :=
  m.declare name .localVar (m.reserved + m.locals.length)

/-- Declares a field. -/
def declareField (m : Method) (name : String) : Method := m.declare name .field 0

/-- Appends an instruction. The result is its index. -/
def append (m : Method) (i : Instruction) : Nat × Method :=
  (m.code.size, { m with code := m.code.push i })

/-- The method with another instruction at its end. -/
def push (m : Method) (i : Instruction) : Method := (m.append i).2

/-- An instruction that was appended is at the index that was told. -/
theorem instruction_append (m : Method) (i : Instruction) :
    (m.append i).2.instruction (m.append i).1 = .ok i := by
  simp [append, instruction]

/-- Drops the last instruction. The labels stay. -/
def pop (m : Method) : Method := { m with code := m.code.pop }

/-- Puts a label at the end of the code. A label that is there already moves. -/
def label (m : Method) (label : String) : Method :=
  { m with labels := m.labels.insert label m.code.size }

/-- Puts another instruction in the place of one. -/
def setInstruction (m : Method) (index : Nat) (i : Instruction) : Except Error Method :=
  if h : index < m.code.size then .ok { m with code := m.code.set index i h }
  else .error (.missingInstruction index)

/-- Gives a variable another register. -/
def setRegister (m : Method) (name : String) (register : Nat) : Except Error Method :=
  if name ∈ m.table then
    .ok { m with table := m.table.modify name fun v => { v with register } }
  else .error (.malformed (.undeclaredVariable name))

/-! ## Printing -/

/-- The labels that mark an index, by name. -/
def labelsAt (m : Method) (index : Nat) : List String :=
  (m.labels.filter fun _ i => i = index).keys

/-- A text as a line, indented. -/
def indented (width : Nat) (text : String) : String :=
  .ofList (List.replicate width ' ') ++ text ++ "\n"

/-- The text of a method: its header, and a line for each label and each
    instruction. A label at the end of the code marks no instruction and is not
    shown. -/
def render (m : Method) : String :=
  let header := (if m.isStatic then "static " else "") ++ "Method " ++ Text.quoted m.name ++
    "(" ++ ", ".intercalate m.params ++ ")"
  let lines := m.code.toList.zipIdx.flatMap fun (i, index) =>
    (m.labelsAt index).map (fun l => indented 4 (l ++ ":")) ++ [indented 8 i.text]
  indented 0 header ++ .join lines

end Method

end Midend
