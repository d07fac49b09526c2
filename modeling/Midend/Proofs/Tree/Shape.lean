import Midend.Proofs.Tree.Reading

/-!
# The shape of a program

Which children the nodes of a program have. Expressions have expressions for
operands, as many as their kind takes. A conditional has a test and one or two
branches, which are statements, a loop a test and a body, and the other statements
have expressions. A method has its declarations and its statements, and is not
within another method. Outside of methods there are the program, its imports and
its classes, with their fields and methods.
-/

namespace Midend

/-- What a node does in a program. -/
inductive Role
  /-- The program or a class, around classes and members of classes. -/
  | scope
  | importDecl
  | method
  /-- A declaration of a local, a parameter or a field. -/
  | variable
  | block
  /-- A conditional or a loop, the first child of which is a test. -/
  | control
  /-- A statement that is made of expressions. -/
  | simple
  | expression
  deriving DecidableEq

namespace Kind

/-- The role of nodes of this kind. -/
def role : Kind → Role
  | program | classDecl _ _ => .scope
  | importDecl _ => .importDecl
  | method _ | voidMethod _ | mainMethod => .method
  | varDecl _ _ | param _ _ => .variable
  | block => .block
  | conditional | loop => .control
  | exprStmt | returnStmt | assignment _ | arrayAssignment _ => .simple
  | _ => .expression

/-- Whether an expression of this kind has so many operands. A call has its
    receiver and any number of arguments. -/
def takesOperands : Kind → Nat → Bool
  | integer _, n | boolean _, n | identifier _, n | this, n | newObject _, n => n = 0
  | parentheses, n | negation, n | length, n | newIntArray, n => n = 1
  | arithmetic _, n | comparison _, n | logical _, n | arrayAccess, n => n = 2
  | call _, n => 1 ≤ n
  | _, _ => false

/-- Whether a statement of this kind is made of so many expressions. -/
def takesExpressions : Kind → Nat → Bool
  | exprStmt, n | returnStmt, n | assignment _, n => n = 1
  | arrayAssignment _, n => n = 2
  | _, _ => false

/-- Whether the first child of a node of this kind is a test. -/
def isControl (k : Kind) : Bool := k.role = .control

/-- Whether this is the declaration of a variable: a local, a parameter or a
    field. -/
def isVariable (k : Kind) : Bool := k.role = .variable

/-- Whether the children of this kind are classes, or members of a class. -/
def isScope (k : Kind) : Bool := k.role = .scope

/-- Whether this is a declaration of a variable, or a statement with statements for
    children. -/
def isCompound (k : Kind) : Bool := k.role = .variable ∨ k.role = .block ∨ k.role = .control

/-- The variable that a statement of this kind assigns. -/
def target? : Kind → Option String
  | assignment target => some target
  | _ => none

/-- Whether a statement of this kind is made of expressions and assigns no
    variable. -/
def isPlain (k : Kind) : Bool := !k.isCompound && k.target?.isNone

variable {k : Kind} {n : Nat}

theorem role_of_takesOperands (h : k.takesOperands n) : k.role = .expression := by
  cases k <;> first | rfl | cases h

theorem role_of_takesExpressions (h : k.takesExpressions n) : k.role = .simple := by
  cases k <;> first | rfl | cases h

theorem isMethod_eq (k : Kind) : k.isMethod = decide (k.role = .method) := by
  cases k <;> rfl

theorem isMethod_eq_false (h : k.role ≠ .method) : k.isMethod = false := by
  rw [isMethod_eq, decide_eq_false h]

theorem holdsStatements_eq (k : Kind) :
    k.holdsStatements = decide (k.role = .block ∨ k.role = .method) := by
  cases k <;> rfl

theorem eq_of_isControl (h : k.isControl) : k = conditional ∨ k = loop := by
  cases k <;> first | exact .inl rfl | exact .inr rfl | cases h

theorem not_isControl_of_takesOperands (h : k.takesOperands n) : ¬ k.isControl := by
  simp [isControl, role_of_takesOperands h]

theorem holdsStatements_of_takesOperands (h : k.takesOperands n) : k.holdsStatements = false := by
  simp [holdsStatements_eq, role_of_takesOperands h]

theorem holdsStatements_of_takesExpressions (h : k.takesExpressions n) :
    k.holdsStatements = false := by
  simp [holdsStatements_eq, role_of_takesExpressions h]

end Kind

namespace Tree

/-- The tree is an expression. -/
inductive IsExpr : Tree → Prop
  | node (i : NodeId) {k : Kind} {cs : List Tree} :
    k.takesOperands cs.length → (∀ c ∈ cs, IsExpr c) → IsExpr (.node i k cs)

theorem IsExpr.takesOperands {i : NodeId} {k : Kind} {cs : List Tree}
    (h : IsExpr (.node i k cs)) : k.takesOperands cs.length := by
  cases h with
  | node _ hk _ => exact hk

theorem IsExpr.of_mem {i : NodeId} {k : Kind} {cs : List Tree} (h : IsExpr (.node i k cs))
    {c : Tree} (hc : c ∈ cs) : IsExpr c := by
  cases h with
  | node _ _ hcs => exact hcs c hc

theorem IsExpr.role_eq {t : Tree} (h : t.IsExpr) : t.kind.role = .expression := by
  cases h with
  | node _ hk => exact Kind.role_of_takesOperands hk

/-- The tree is a statement. -/
inductive IsStmt : Tree → Prop
  | simple (i : NodeId) {k : Kind} {cs : List Tree} :
    k.takesExpressions cs.length → (∀ c ∈ cs, IsExpr c) → IsStmt (.node i k cs)
  | block (i : NodeId) {cs : List Tree} : (∀ c ∈ cs, IsStmt c) → IsStmt (.node i .block cs)
  | conditional (i : NodeId) {t : Tree} {bs : List Tree} :
    IsExpr t → bs.length = 1 ∨ bs.length = 2 → (∀ b ∈ bs, IsStmt b) →
    IsStmt (.node i .conditional (t :: bs))
  | loop (i : NodeId) {t b : Tree} : IsExpr t → IsStmt b → IsStmt (.node i .loop [t, b])

theorem IsStmt.role_mem {t : Tree} (h : t.IsStmt) :
    t.kind.role ∈ [.simple, .block, .control] := by
  cases h with
  | simple _ hk => simp [Kind.role_of_takesExpressions hk]
  | block | conditional | loop => simp [Kind.role]

theorem IsStmt.isExpr_test {i : NodeId} {k : Kind} {t : Tree} {cs : List Tree} (hk : k.isControl)
    (h : IsStmt (.node i k (t :: cs))) : IsExpr t := by
  cases h with
  | simple _ hk' => rcases Kind.eq_of_isControl hk with rfl | rfl <;> cases hk'
  | block => cases hk
  | conditional _ ht | loop _ ht => exact ht

theorem IsStmt.branches {i : NodeId} {t : Tree} {bs : List Tree}
    (h : IsStmt (.node i .conditional (t :: bs))) :
    (bs.length = 1 ∨ bs.length = 2) ∧ ∀ b ∈ bs, IsStmt b := by
  cases h with
  | simple _ hk => cases hk
  | conditional _ _ hlen hbs => exact ⟨hlen, hbs⟩

theorem IsStmt.body {i : NodeId} {t : Tree} {cs : List Tree}
    (h : IsStmt (.node i .loop (t :: cs))) : ∃ b, cs = [b] ∧ IsStmt b := by
  cases h with
  | simple _ hk => cases hk
  | loop _ _ hb => exact ⟨_, rfl, hb⟩

theorem IsStmt.of_mem_block {i : NodeId} {cs : List Tree} (h : IsStmt (.node i .block cs))
    {c : Tree} (hc : c ∈ cs) : c.IsStmt := by
  cases h with
  | simple _ hk => cases hk
  | block _ hcs => exact hcs c hc

/-- The tree declares a variable. -/
inductive IsVariable : Tree → Prop
  | node (i : NodeId) {k : Kind} : k.isVariable → IsVariable (.node i k [])

/-- The tree is a statement, or declares a variable where declarations may stand. -/
def IsItem (d : Prop) (t : Tree) : Prop := d ∧ t.IsVariable ∨ t.IsStmt

theorem IsStmt.isItem {d : Prop} {t : Tree} (h : t.IsStmt) : t.IsItem d := .inr h

theorem isItem_false {t : Tree} : t.IsItem False ↔ t.IsStmt := by simp [IsItem]

theorem IsItem.isStmt {d : Prop} {i : NodeId} {k : Kind} {cs : List Tree}
    (h : IsItem d (.node i k cs)) (hk : k.isControl) : IsStmt (.node i k cs) := by
  refine h.resolve_left fun hv => ?_
  cases hv.2 with
  | node _ hk' => rcases Kind.eq_of_isControl hk with rfl | rfl <;> cases hk'

theorem IsItem.role_mem {d : Prop} {t : Tree} (h : t.IsItem d) :
    t.kind.role ∈ [.variable, .simple, .block, .control] := by
  rcases h with ⟨-, h⟩ | h
  · cases h with
    | node _ hk => simp [of_decide_eq_true hk]
  · exact List.mem_cons_of_mem _ h.role_mem

theorem IsItem.not_takesOperands {d : Prop} {i : NodeId} {k : Kind} {cs : List Tree}
    (h : IsItem d (.node i k cs)) (n : Nat) : ¬ k.takesOperands n := by
  intro hn
  simpa [Kind.role_of_takesOperands hn] using h.role_mem

theorem IsItem.takesExpressions {d : Prop} {i : NodeId} {k : Kind} {cs : List Tree}
    (h : IsItem d (.node i k cs)) (hk : k.isCompound = false) :
    k.takesExpressions cs.length ∧ ∀ c ∈ cs, c.IsExpr := by
  rcases h with ⟨-, h⟩ | h
  · cases h with
    | node _ hv => simp [Kind.isCompound, of_decide_eq_true hv] at hk
  · cases h with
    | simple _ hk hcs => exact ⟨hk, hcs⟩
    | block | conditional | loop => cases hk

theorem IsItem.of_mem_block {d : Prop} {i : NodeId} {cs : List Tree}
    (h : IsItem d (.node i .block cs)) {c : Tree} (hc : c ∈ cs) : c.IsStmt := by
  rcases h with ⟨-, h⟩ | h
  · cases h with
    | node _ hk => cases hk
  · exact h.of_mem_block hc

/-- The tree is a method, or what is around methods. -/
inductive WellShaped : Tree → Prop
  | method (i : NodeId) {k : Kind} {cs : List Tree} :
    k.isMethod → (∀ c ∈ cs, IsItem True c) → WellShaped (.node i k cs)
  | scope (i : NodeId) {k : Kind} {cs : List Tree} :
    k.isScope → (∀ c ∈ cs, WellShaped c) → WellShaped (.node i k cs)
  | importDecl (i : NodeId) (path : String) : WellShaped (.node i (.importDecl path) [])
  | field (i : NodeId) (name type : String) : WellShaped (.node i (.varDecl name type) [])

theorem WellShaped.role_mem {t : Tree} (h : t.WellShaped) :
    t.kind.role ∈ [.method, .scope, .importDecl, .variable] := by
  cases h with
  | method _ hk =>
    rw [Kind.isMethod_eq, decide_eq_true_iff] at hk
    simp [hk]
  | scope _ hk => simp [of_decide_eq_true hk]
  | importDecl | field => simp [Kind.role]

theorem WellShaped.not_isControl {i : NodeId} {k : Kind} {cs : List Tree}
    (h : WellShaped (.node i k cs)) : ¬ k.isControl := by
  intro hc
  simpa [of_decide_eq_true hc] using h.role_mem

theorem WellShaped.not_takesOperands {i : NodeId} {k : Kind} {cs : List Tree}
    (h : WellShaped (.node i k cs)) (n : Nat) : ¬ k.takesOperands n := by
  intro hn
  simpa [Kind.role_of_takesOperands hn] using h.role_mem

end Tree

end Midend
