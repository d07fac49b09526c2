import Mathlib.Logic.Function.Basic
import Midend.NameSet
import Midend.Proofs.Tree.Reading

/-!
# What a program means

The meaning of the body of a method, as the outcomes that its runs have. A run
starts from values of the local variables and a world, and ends, if it does, in
values and a world again. It ends normally, or the method returns a value, or the
run stops: at a division by zero, at a value of the wrong type, or because an
operation failed.

Arithmetic is that of 32-bit integers, which wraps around, and the second operand
of a logical operator is evaluated only if the first one does not settle the
value. The locals are the variables that the method declares. Everything else is
in the world and behind the operations of a *runtime*, which are arbitrary: calls,
the creation of objects and arrays, what is in an array, and all other names,
which stand for fields. No operation sees the locals.

The meaning of a node is made of the meanings of its children
(`Runtime.eval_node`, `Runtime.exec_node`).
-/

namespace Midend

/-- A value, with references in `ρ`. -/
inductive Value (ρ : Type)
  | int (value : Int32)
  | bool (value : Bool)
  | ref (value : ρ)

/-- The value of a literal. -/
def Literal.value {ρ : Type} : Literal → Value ρ
  | .int v => .int v
  | .bool b => .bool b

/-- Why a run stops. -/
inductive Stop
  | divisionByZero
  /-- An operand has a value of the wrong type. -/
  | illTyped
  /-- An operation of the runtime failed. -/
  | failed

/-- How a run ends. -/
inductive Exit (ρ : Type)
  | normal
  | returned (value : Value ρ)
  | stopped (stop : Stop)

/-- The values of the locals. -/
abbrev Store (ρ : Type) := String → Value ρ

/-- The values of the locals, and the world. -/
structure RunState (ρ ω : Type) where
  /-- The values of the locals. -/
  locals : Store ρ
  /-- The world. -/
  world : ω

/-- What is computed in the world: a result or the reason for a stop. -/
abbrev Computation (ω α : Type) := EStateM Stop ω α

/-- The operations on a world. An operation is named by the kind of its node, and
    gets the values of the operands; it may fail, and change the world even then. -/
structure Runtime (ρ ω : Type) where
  /-- The result of an operation, and the world after it. -/
  perform : Kind → List (Value ρ) → ω → Option (Value ρ) × ω

/-- The outcomes of runs: from a state to an exit and the state then. -/
abbrev Behavior (ρ ω : Type) := RunState ρ ω → Exit ρ → RunState ρ ω → Prop

variable {ρ ω α : Type}

/-! ## Behavior -/

namespace Behavior

/-- Nothing is done. -/
def skip : Behavior ρ ω := fun s e s' => e = .normal ∧ s' = s

/-- The first behavior, and the second one if that ends normally. -/
def andThen (a b : Behavior ρ ω) : Behavior ρ ω := fun s e s' =>
  (∃ s₁, a s .normal s₁ ∧ b s₁ e s') ∨ (e ≠ .normal ∧ a s e s')

/-- The behaviors one after the other. -/
def inOrder : List (Behavior ρ ω) → Behavior ρ ω
  | [] => skip
  | b :: bs => b.andThen (inOrder bs)

/-- A computation, and what is done with its result. -/
def compute (x : Store ρ → Computation ω α) (next : α → Behavior ρ ω) : Behavior ρ ω :=
  fun s e s' =>
    match x s.locals s.world with
    | .ok v w => next v { s with world := w } e s'
    | .error stop w => e = .stopped stop ∧ s' = { s with world := w }

/-- The local variable gets the value. -/
def assign (name : String) (v : Value ρ) : Behavior ρ ω := fun s e s' =>
  e = .normal ∧ s' = { s with locals := Function.update s.locals name v }

/-- The method returns the value. -/
def leave (v : Value ρ) : Behavior ρ ω := fun s e s' => e = .returned v ∧ s' = s

/-- The body is run as long as the test holds. -/
inductive repeated (test : Store ρ → Computation ω Bool) (body : Behavior ρ ω) : Behavior ρ ω
  | done {s : RunState ρ ω} {w : ω} :
    test s.locals s.world = .ok false w → repeated test body s .normal { s with world := w }
  | again {s s₁ s' : RunState ρ ω} {w : ω} {e : Exit ρ} :
    test s.locals s.world = .ok true w → body { s with world := w } .normal s₁ →
    repeated test body s₁ e s' → repeated test body s e s'
  | exit {s s' : RunState ρ ω} {w : ω} {e : Exit ρ} :
    test s.locals s.world = .ok true w → body { s with world := w } e s' → e ≠ .normal →
    repeated test body s e s'
  | stop {s : RunState ρ ω} {w : ω} {stop : Stop} :
    test s.locals s.world = .error stop w →
    repeated test body s (.stopped stop) { s with world := w }

@[simp] theorem skip_andThen (b : Behavior ρ ω) : skip.andThen b = b := by
  funext s e s'
  simp only [andThen, skip, true_and, exists_eq_left, eq_iff_iff, or_iff_left_iff_imp]
  rintro ⟨he, he', -⟩
  exact absurd he' he

@[simp] theorem andThen_skip (b : Behavior ρ ω) : b.andThen skip = b := by
  funext s e s'
  by_cases he : e = .normal
  · subst he
    simp [andThen, skip]
  · simp [andThen, skip, he]

theorem andThen_congr {a a' b b' : Behavior ρ ω} {s : RunState ρ ω} (ha : a s = a' s)
    (hb : ∀ s₁, a' s .normal s₁ → b s₁ = b' s₁) : a.andThen b s = a'.andThen b' s := by
  funext e s'
  simp only [andThen, ha]
  congr 1
  refine propext (exists_congr fun s₁ => and_congr_right fun h => ?_)
  rw [hb s₁ h]

theorem compute_congr {x y : Store ρ → Computation ω α} {next next' : α → Behavior ρ ω}
    {s : RunState ρ ω} (h : x s.locals = y s.locals)
    (hnext : ∀ v w, next v { s with world := w } = next' v { s with world := w }) :
    compute x next s = compute y next' s := by
  funext e s'
  simp only [compute, h, hnext]

/-- A computation goes on normally only with a result. -/
theorem exists_of_compute_normal {x : Store ρ → Computation ω α} {next : α → Behavior ρ ω}
    {s s' : RunState ρ ω} (h : compute x next s .normal s') :
    ∃ v w, x s.locals s.world = .ok v w ∧ next v { s with world := w } .normal s' := by
  unfold compute at h
  split at h
  next v w hx => exact ⟨v, w, hx, h⟩
  next => cases h.1

/-- A computation that has a value at once goes on with it. -/
theorem compute_of_eq_pure {x : Store ρ → Computation ω α} {next : α → Behavior ρ ω} {v : α}
    {s : RunState ρ ω} (h : x s.locals = pure v) : compute x next s = next v s := by
  funext e s'
  simp [compute, h, pure, EStateM.pure]

/-- A loop whose test does not hold does nothing. -/
theorem repeated_of_eq_pure_false {test : Store ρ → Computation ω Bool} {body : Behavior ρ ω}
    {s : RunState ρ ω} (h : test s.locals = pure false) : repeated test body s = skip s := by
  have hs : test s.locals s.world = .ok false s.world := by rw [h]; rfl
  funext e s'
  refine propext ⟨fun hr => ?_, ?_⟩
  · cases hr with
    | done hw =>
      cases hs.symm.trans hw
      exact ⟨rfl, rfl⟩
    | again hw | exit hw | stop hw => cases hs.symm.trans hw
  · rintro ⟨rfl, rfl⟩
    exact .done hs

section Loops

variable {test test' : Store ρ → Computation ω Bool} {body body' : Behavior ρ ω}
  {P : Store ρ → Prop}

theorem repeated.of_agree (htest : ∀ s, P s → test s = test' s)
    (hbody : ∀ s, P s.locals → body s = body' s)
    (hkeep : ∀ s e s', P s.locals → body s e s' → P s'.locals) {s s' : RunState ρ ω} {e : Exit ρ}
    (h : repeated test body s e s') (hs : P s.locals) : repeated test' body' s e s' := by
  induction h with
  | done hw => exact .done (htest _ hs ▸ hw)
  | @again s _ _ w _ hw hb _ ih =>
    have hs₁ := hkeep { s with world := w } _ _ hs hb
    rw [hbody { s with world := w } hs] at hb
    exact .again (htest _ hs ▸ hw) hb (ih hs₁)
  | @exit s _ w _ hw hb he =>
    rw [hbody { s with world := w } hs] at hb
    exact .exit (htest _ hs ▸ hw) hb he
  | stop hw => exact .stop (htest _ hs ▸ hw)

/-- Loops behave in the same way if their tests and bodies do in all states with
    a property that the body keeps. -/
theorem repeated_congr (htest : ∀ s, P s → test s = test' s)
    (hbody : ∀ s, P s.locals → body s = body' s)
    (hkeep : ∀ s e s', P s.locals → body s e s' → P s'.locals) {s : RunState ρ ω}
    (hs : P s.locals) : repeated test body s = repeated test' body' s := by
  -- The other body keeps the property as well, being the same where it holds.
  have hkeep' : ∀ s e s', P s.locals → body' s e s' → P s'.locals := fun s e s' hs hb =>
    hkeep s e s' hs ((congrFun₂ (hbody s hs) e s').mpr hb)
  funext e s'
  refine propext ⟨fun h => h.of_agree htest hbody hkeep hs, fun h => ?_⟩
  exact h.of_agree (fun s hs => (htest s hs).symm) (fun s hs => (hbody s hs).symm) hkeep' hs

end Loops

theorem andThen_assoc (a b c : Behavior ρ ω) :
    (a.andThen b).andThen c = a.andThen (b.andThen c) := by
  funext s e s'
  simp only [andThen, ne_eq, not_true_eq_false, false_and, or_false, eq_iff_iff]
  constructor
  · rintro (⟨s₂, ⟨s₁, h₁, h₂⟩, h₃⟩ | ⟨he, ⟨s₁, h₁, h₂⟩ | ⟨-, h⟩⟩)
    · exact .inl ⟨s₁, h₁, .inl ⟨s₂, h₂, h₃⟩⟩
    · exact .inl ⟨s₁, h₁, .inr ⟨he, h₂⟩⟩
    · exact .inr ⟨he, h⟩
  · rintro (⟨s₁, h₁, ⟨s₂, h₂, h₃⟩ | ⟨he, h₂⟩⟩ | ⟨he, h⟩)
    · exact .inl ⟨s₂, ⟨s₁, h₁, h₂⟩, h₃⟩
    · exact .inr ⟨he, .inl ⟨s₁, h₁, h₂⟩⟩
    · exact .inr ⟨he, .inr ⟨he, h⟩⟩

theorem inOrder_append (as bs : List (Behavior ρ ω)) :
    inOrder (as ++ bs) = (inOrder as).andThen (inOrder bs) := by
  induction as with
  | nil => exact (skip_andThen _).symm
  | cons a as ih => rw [List.cons_append, inOrder, ih, inOrder, andThen_assoc]

@[simp] theorem inOrder_singleton (b : Behavior ρ ω) : inOrder [b] = b :=
  andThen_skip b

end Behavior

/-! ## Expressions -/

namespace Value

/-- The value as a truth value. -/
def truth : Value ρ → Computation ω Bool
  | .bool b => pure b
  | _ => throw .illTyped

/-- The value of an arithmetic operator. -/
def arithmetic (op : Arith) : Value ρ → Value ρ → Computation ω (Value ρ)
  | .int x, .int y =>
    match op.eval? x y with
    | some v => pure (.int v)
    | none => throw .divisionByZero
  | _, _ => throw .illTyped

/-- The value of a comparison. -/
def comparison (op : Compare) : Value ρ → Value ρ → Computation ω (Value ρ)
  | .int x, .int y => pure (.bool (op.eval x y))
  | _, _ => throw .illTyped

end Value

/-- Whether the first operand settles the value, which it then is. -/
def Logic.settledBy : Logic → Bool → Bool
  | .and, x => !x
  | .or, x => x

namespace Runtime

variable (R : Runtime ρ ω) (L : NameSet)

/-- An operation as a computation. -/
def act (k : Kind) (vs : List (Value ρ)) : Computation ω (Value ρ) := fun w =>
  match R.perform k vs w with
  | (some v, w) => .ok v w
  | (none, w) => .error .failed w

/-- The value of a name: a local, or a field. -/
def name (s : Store ρ) (x : String) : Computation ω (Value ρ) :=
  if x ∈ L then pure (s x) else R.act (.identifier x) []

/-- The value of an expression of a kind, given those of its operands. -/
def value (s : Store ρ) (k : Kind) (xs : List (Computation ω (Value ρ))) :
    Computation ω (Value ρ) :=
  match k, xs with
  | .integer v, _ => pure (.int v)
  | .boolean b, _ => pure (.bool b)
  | .identifier x, _ => R.name L s x
  | .parentheses, [x] => x
  | .negation, [x] => do return .bool !(← (← x).truth)
  | .arithmetic op, [x, y] => do (← x).arithmetic op (← y)
  | .comparison op, [x, y] => do (← x).comparison op (← y)
  | .logical op, [x, y] => do
    let b ← (← x).truth
    if op.settledBy b then return .bool b else return .bool (← (← y).truth)
  | k, xs => do R.act k (← xs.mapM id)

mutual

/-- The value of an expression. -/
def eval (s : Store ρ) : Tree → Computation ω (Value ρ)
  | .node _ k cs => R.value L s k (evalAll s cs)

/-- The values of expressions. -/
def evalAll (s : Store ρ) : List Tree → List (Computation ω (Value ρ))
  | [] => []
  | t :: ts => eval s t :: evalAll s ts

end

theorem evalAll_eq (s : Store ρ) (ts : List Tree) : R.evalAll L s ts = ts.map (R.eval L s) := by
  induction ts with
  | nil => rfl
  | cons t ts ih => rw [evalAll, ih, List.map_cons]

theorem eval_node (s : Store ρ) (i : NodeId) (k : Kind) (cs : List Tree) :
    R.eval L s (.node i k cs) = R.value L s k (cs.map (R.eval L s)) := by
  rw [eval, evalAll_eq]

theorem eval_of_literal? {t : Tree} {l : Literal} (h : t.literal? = some l) (s : Store ρ) :
    R.eval L s t = pure l.value := by
  obtain ⟨i, k, cs⟩ := t
  rw [eval_node]
  cases k <;> cases h <;> rfl

@[simp] theorem eval_ofLiteral (s : Store ρ) (i : NodeId) (l : Literal) (cs : List Tree) :
    R.eval L s (.node i (.ofLiteral l) cs) = pure l.value := by
  refine R.eval_of_literal? L ?_ s
  exact Kind.literal?_ofLiteral l

/-! ## Statements -/

/-- The truth value of a test. -/
def truthOf (x : Store ρ → Computation ω (Value ρ)) (s : Store ρ) : Computation ω Bool := do
  (← x s).truth

/-- The behavior of a statement of a kind, given the values and the behaviors of
    its children. A node that is no statement has no outcomes. -/
def behavior (k : Kind) (xs : List (Store ρ → Computation ω (Value ρ)))
    (bs : List (Behavior ρ ω)) : Behavior ρ ω :=
  match k, xs, bs with
  | .exprStmt, [x], _ => .compute x fun _ => .skip
  | .returnStmt, [x], _ => .compute x .leave
  | .assignment target, [x], _ => .compute x fun v =>
    if target ∈ L then .assign target v
    else .compute (fun _ => R.act (.assignment target) [v]) fun _ => .skip
  | .arrayAssignment target, [i, x], _ => .compute
    (fun s => do R.act (.arrayAssignment target) [← R.name L s target, ← i s, ← x s])
    fun _ => .skip
  | .block, _, bs => .inOrder bs
  | .conditional, x :: _, [_, a] => .compute (truthOf x) fun c => if c then a else .skip
  | .conditional, x :: _, [_, a, b] => .compute (truthOf x) fun c => if c then a else b
  | .loop, x :: _, [_, b] => .repeated (truthOf x) b
  | .varDecl _ _, _, _ => .skip
  | .param _ _, _, _ => .skip
  | _, _, _ => fun _ _ _ => False

mutual

/-- The behavior of a statement. -/
def exec : Tree → Behavior ρ ω
  | .node _ k cs => R.behavior L k (cs.map fun c s => R.eval L s c) (execAll cs)

/-- The behaviors of statements. -/
def execAll : List Tree → List (Behavior ρ ω)
  | [] => []
  | t :: ts => exec t :: execAll ts

end

theorem execAll_eq (ts : List Tree) : R.execAll L ts = ts.map (R.exec L) := by
  induction ts with
  | nil => rfl
  | cons t ts ih => rw [execAll, ih, List.map_cons]

theorem exec_node (i : NodeId) (k : Kind) (cs : List Tree) :
    R.exec L (.node i k cs) =
      R.behavior L k (cs.map fun c s => R.eval L s c) (cs.map (R.exec L)) := by
  rw [exec, execAll_eq]

/-- The behavior of a list of statements. -/
def run (ts : List Tree) : Behavior ρ ω := .inOrder (ts.map (R.exec L))

theorem run_append (ts us : List Tree) :
    R.run L (ts ++ us) = (R.run L ts).andThen (R.run L us) := by
  rw [run, List.map_append, Behavior.inOrder_append, run, run]

@[simp] theorem run_nil : R.run L [] = .skip := rfl

@[simp] theorem run_singleton (t : Tree) : R.run L [t] = R.exec L t := Behavior.inOrder_singleton _

/-! ## Single statements -/

theorem exec_block (i : NodeId) (cs : List Tree) : R.exec L (.node i .block cs) = R.run L cs :=
  R.exec_node L i .block cs

theorem exec_assignment (i : NodeId) (x : String) (t : Tree) :
    R.exec L (.node i (.assignment x) [t]) =
      .compute (fun s => R.eval L s t) fun v =>
        if x ∈ L then .assign x v
        else .compute (fun _ => R.act (.assignment x) [v]) fun _ => .skip :=
  R.exec_node L i (.assignment x) [t]

/-- The test of a conditional or a loop. -/
def test (t : Tree) : Store ρ → Computation ω Bool := truthOf fun s => R.eval L s t

theorem exec_conditional_one (i : NodeId) (t a : Tree) :
    R.exec L (.node i .conditional [t, a]) =
      .compute (R.test L t) fun c => if c then R.exec L a else .skip :=
  R.exec_node L i .conditional [t, a]

theorem exec_conditional_two (i : NodeId) (t a b : Tree) :
    R.exec L (.node i .conditional [t, a, b]) =
      .compute (R.test L t) fun c => if c then R.exec L a else R.exec L b :=
  R.exec_node L i .conditional [t, a, b]

theorem exec_loop (i : NodeId) (t b : Tree) :
    R.exec L (.node i .loop [t, b]) = .repeated (R.test L t) (R.exec L b) :=
  R.exec_node L i .loop [t, b]

theorem test_congr {s : Store ρ} {t u : Tree} (h : R.eval L s u = R.eval L s t) :
    R.test L u s = R.test L t s := by
  simp only [test, truthOf, h]

/-- A test that is a literal has its value in every state. -/
theorem test_of_eval {s : Store ρ} {t : Tree} {c : Bool}
    (h : R.eval L s t = pure (.bool c)) : R.test L t s = pure c := by
  simp [test, truthOf, h, Value.truth]

end Runtime

/-! ## Methods -/

namespace Tree

/-- The name that a declaration of a local or a parameter declares. -/
def declares? (t : Tree) : Option String :=
  match t.kind with
  | .varDecl name _ => some name
  | .param name _ => some name
  | _ => none

/-- The names that a method declares. -/
def locals (t : Tree) : NameSet := .of (t.children.filterMap declares?)

end Tree

/-- The outcomes of the body of a method. -/
def Runtime.outcomes (R : Runtime ρ ω) (method : Tree) : Behavior ρ ω :=
  R.run method.locals method.children

/-- The outcomes of the body of the method at a node. -/
def Forest.Outcomes (f : Forest) (R : Runtime ρ ω) (method : NodeId) : Behavior ρ ω :=
  fun s e s' => ∃ t, f.Reads t ∧ t.root = method ∧ R.outcomes t s e s'

end Midend
