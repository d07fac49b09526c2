import Midend.Tree.Kind

/-!
# Attributes by name

The attributes of a kind can be read and set as text, by name. Which attributes
a kind has is a table: reading asks it with `Kind.attribute?`, and setting with
`Kind.setAttribute`. The two differ in one place: the name of the main method
can be read and not set.
-/

namespace Midend

/-- The attributes that kinds have. -/
inductive Attribute
  | value
  | op
  | varname
  | methodname
  | name
  | type
  | superclass
  deriving DecidableEq, Repr

namespace Attribute

/-- The name by which an attribute is asked for. -/
def key : Attribute → String
  | value => "value"
  | op => "op"
  | varname => "varname"
  | methodname => "methodname"
  | name => "name"
  | type => "type"
  | superclass => "extends"

/-- The attributes, in the order in which they are listed. -/
def vocabulary : Vocabulary Attribute where
  all := [value, op, varname, methodname, name, type, superclass]
  text := key
  mem_all a := by cases a <;> decide
  eq_of_text_eq {a b} := by cases a <;> cases b <;> decide

/-- The attribute of a name. -/
def ofKey? (s : String) : Option Attribute := vocabulary.find? s

/-- A name is the one of an attribute exactly if the attribute is found by it. -/
theorem ofKey?_eq_some_iff {s : String} {a : Attribute} : ofKey? s = some a ↔ s = a.key :=
  vocabulary.find?_eq_some_iff

end Attribute

namespace Kind

/-- The text of an attribute, if the kind has it. -/
def get? : Kind → Attribute → Option String
  | integer v, .value => some (Decimal.text v.toInt)
  | boolean b, .value => some (boolText b)
  | identifier name, .value => some name
  | arithmetic op, .op => some op.symbol
  | comparison op, .op => some op.symbol
  | logical op, .op => some op.symbol
  | assignment target, .varname => some target
  | arrayAssignment target, .varname => some target
  | method name, .methodname => some name
  | voidMethod name, .methodname => some name
  | mainMethod, .methodname => some "main"
  | call callee, .methodname => some callee
  | importDecl path, .name => some path
  | classDecl name _, .name => some name
  | varDecl name _, .name => some name
  | param name _, .name => some name
  | newObject className, .name => some className
  | varDecl _ type, .type => some type
  | param _ type, .type => some type
  | classDecl _ superclass, .superclass => superclass
  | _, _ => none

/-- The text of the attribute of a name, if the kind has it. -/
def attribute? (k : Kind) (name : String) : Option String :=
  (Attribute.ofKey? name).bind k.get?

/-- The kind with an attribute set from its text. -/
def set (k : Kind) (a : Attribute) (v : String) : Except Error Kind :=
  match k, a with
  | integer _, .value =>
    match Decimal.readInt32? v with
    | some n => .ok (integer n)
    | none => .error (.malformed (.notInteger v))
  | boolean _, .value =>
    match readBool? v with
    | some b => .ok (boolean b)
    | none => .error (.malformed (.notBoolean v))
  | identifier _, .value => .ok (identifier v)
  | arithmetic _, .op => (Arith.family.parse v).map arithmetic
  | comparison _, .op => (Compare.family.parse v).map comparison
  | logical _, .op => (Logic.family.parse v).map logical
  | assignment _, .varname => .ok (assignment v)
  | arrayAssignment _, .varname => .ok (arrayAssignment v)
  | method _, .methodname => .ok (method v)
  | voidMethod _, .methodname => .ok (voidMethod v)
  | call _, .methodname => .ok (call v)
  | importDecl _, .name => .ok (importDecl v)
  | classDecl _ superclass, .name => .ok (classDecl v superclass)
  | varDecl _ type, .name => .ok (varDecl v type)
  | param _ type, .name => .ok (param v type)
  | newObject _, .name => .ok (newObject v)
  | varDecl name _, .type => .ok (varDecl name v)
  | param name _, .type => .ok (param name v)
  | classDecl name _, .superclass => .ok (classDecl name (some v))
  | k, a => .error (.malformed (.noAttribute k.label a.key))

/-- The kind with the attribute of a name set from its text. -/
def setAttribute (k : Kind) (name v : String) : Except Error Kind :=
  match Attribute.ofKey? name with
  | some a => k.set a v
  | none => .error (.malformed (.noAttribute k.label name))

end Kind

end Midend
