import Midend.Proofs.Constant.Folding

/-!
# Closed expressions

Expressions that are made of literals and operators on them, each with a type that
fits. Their *value* is found from left to right: each operator is computed on
unbounded integers, and its value is wrapped to 32 bits. A division by zero has no
value, and neither has an expression with one in it.

Folding finds the same value. It leaves the literal that denotes it, or stops at
the first division by zero.

* `Arith.eval?_eq`: operators on 32-bit integers wrap the value on integers;
* `ClosedExpr.evaluates`: what folding makes of a closed expression.
-/

namespace Midend

/-- The types of closed expressions. -/
inductive Scalar
  | int
  | bool

/-- The values of a type. Integers have no bounds. -/
abbrev Scalar.Meaning : Scalar → Type
  | int => Int
  | bool => Bool

/-- The literal stands for the value. -/
def Literal.Denotes : Literal → {τ : Scalar} → τ.Meaning → Prop
  | .int v, .int, n => v.toInt = n
  | .bool c, .bool, b => c = b
  | _, _, _ => False

/-- The signed 32-bit integer that an integer wraps around to. -/
def wrap (n : Int) : Int := n.bmod Int32.size

/-- The value of an operator on integers, of which division truncates towards
    zero. -/
def Arith.onIntegers? : Arith → Int → Int → Option Int
  | add, x, y => some (x + y)
  | sub, x, y => some (x - y)
  | mul, x, y => some (x * y)
  | div, x, y => if y = 0 then none else some (x.tdiv y)

/-- Whether a comparison of integers holds. -/
def Compare.onIntegers : Compare → Int → Int → Bool
  | less, x, y => x < y
  | greater, x, y => y < x

/-- A closed expression of a type, with the numbers of its nodes. -/
inductive ClosedExpr : Scalar → Type
  | integer (i : NodeId) (v : Int32) : ClosedExpr .int
  | boolean (i : NodeId) (b : Bool) : ClosedExpr .bool
  | parentheses (i : NodeId) {τ : Scalar} (e : ClosedExpr τ) : ClosedExpr τ
  | negation (i : NodeId) (e : ClosedExpr .bool) : ClosedExpr .bool
  | arithmetic (i : NodeId) (op : Arith) (l r : ClosedExpr .int) : ClosedExpr .int
  | comparison (i : NodeId) (op : Compare) (l r : ClosedExpr .int) : ClosedExpr .bool
  | logical (i : NodeId) (op : Logic) (l r : ClosedExpr .bool) : ClosedExpr .bool

/-- A division in a closed expression. -/
structure Division where
  /-- The number of its node. -/
  node : NodeId
  /-- What is divided. -/
  dividend : ClosedExpr .int
  /-- What it is divided by. -/
  divisor : ClosedExpr .int

namespace ClosedExpr

variable {τ : Scalar}

/-- The expression as a tree. -/
def tree {τ : Scalar} : ClosedExpr τ → Tree
  | integer i v => .node i (.integer v) []
  | boolean i b => .node i (.boolean b) []
  | parentheses i e => .node i .parentheses [e.tree]
  | negation i e => .node i .negation [e.tree]
  | arithmetic i op l r => .node i (.arithmetic op) [l.tree, r.tree]
  | comparison i op l r => .node i (.comparison op) [l.tree, r.tree]
  | logical i op l r => .node i (.logical op) [l.tree, r.tree]

/-- The value of the expression, unless it divides by zero. Operands are evaluated
    from left to right, and both operands of a logical operator are. -/
def value? {τ : Scalar} : ClosedExpr τ → Option τ.Meaning
  | integer _ v => some v.toInt
  | boolean _ b => some b
  | parentheses _ e => e.value?
  | negation _ e => e.value?.map not
  | arithmetic _ op l r => do (op.onIntegers? (← l.value?) (← r.value?)).map wrap
  | comparison _ op l r => do return op.onIntegers (← l.value?) (← r.value?)
  | logical _ op l r => do return op.eval (← l.value?) (← r.value?)

/-- The divisions of the expression, the operands of each before it. -/
def divisions {τ : Scalar} : ClosedExpr τ → List Division
  | integer _ _ => []
  | boolean _ _ => []
  | parentheses _ e => e.divisions
  | negation _ e => e.divisions
  | arithmetic i op l r =>
    l.divisions ++ r.divisions ++ if op = .div then [⟨i, l, r⟩] else []
  | comparison _ _ l r => l.divisions ++ r.divisions
  | logical _ _ l r => l.divisions ++ r.divisions

end ClosedExpr

/-- Whether the divisor is zero. -/
def Division.byZero (d : Division) : Bool := d.divisor.value? = some 0

/-! ## Operators -/

theorem toInt_eq_zero_iff {x : Int32} : x.toInt = 0 ↔ x = 0 := by
  rw [← Int32.toInt_zero, Int32.toInt_inj]

/-- Operators on 32-bit integers are those on integers, wrapped around. -/
theorem Arith.eval?_eq (op : Arith) (x y : Int32) :
    (op.eval? x y).map Int32.toInt = (op.onIntegers? x.toInt y.toInt).map wrap := by
  cases op with
  | add => exact congrArg some (Int32.toInt_add x y)
  | sub => exact congrArg some (Int32.toInt_sub x y)
  | mul => exact congrArg some (Int32.toInt_mul x y)
  | div =>
    by_cases hy : y = 0
    · rw [eval?, onIntegers?, if_pos hy, if_pos (toInt_eq_zero_iff.2 hy)]
      rfl
    · rw [eval?, onIntegers?, if_neg hy, if_neg (mt toInt_eq_zero_iff.1 hy)]
      exact congrArg some (Int32.toInt_div x y)

theorem Arith.eval?_eq_none_iff {op : Arith} {x y : Int32} :
    op.eval? x y = none ↔ op = .div ∧ y = 0 := by
  cases op with
  | div => simp [eval?]
  | _ => simp [eval?]

theorem Compare.eval_eq (op : Compare) (x y : Int32) :
    op.eval x y = op.onIntegers x.toInt y.toInt := by
  cases op <;> simp only [eval, onIntegers, Int32.lt_iff_toInt_lt]

/-! ## Folding -/

/-- The division by zero is left in one of the trees, with `v` for its dividend. -/
def Division.Remains (d : Division) (v : Int32) (us : List Tree) : Prop :=
  ∃ i j, .node d.node (.arithmetic .div) [.node i (.integer v) [], .node j (.integer 0) []] ∈
    us.flatMap Tree.subtrees

/-- Folding stopped at the first of the divisions that is one by zero. -/
def StopsAt (m : String) (ds : List Division) (us : List Tree) (r : Except Error Bool) : Prop :=
  ∃ d v, ds.find? Division.byZero = some d ∧ d.dividend.value? = some v.toInt ∧
    r = .error (.divisionByZero m (Decimal.text v.toInt ++ " / 0")) ∧ d.Remains v us

namespace StopsAt

variable {m : String} {ds ds' : List Division} {us vs : List Tree} {r : Except Error Bool}

theorem exists_eq_error (h : StopsAt m ds us r) : ∃ e, r = .error e := by
  obtain ⟨d, v, hd, hv, hr, hmem⟩ := h
  exact ⟨_, hr⟩

theorem append_left (h : StopsAt m ds us r) : StopsAt m (ds ++ ds') (us ++ vs) r := by
  obtain ⟨d, v, hd, hv, hr, i, j, hmem⟩ := h
  refine ⟨d, v, ?_, hv, hr, i, j, ?_⟩
  · rw [List.find?_append, hd, Option.some_or]
  · rw [List.flatMap_append]
    exact List.mem_append_left _ hmem

theorem append_right (hds : ds.find? Division.byZero = none) (us : List Tree)
    (h : StopsAt m ds' vs r) : StopsAt m (ds ++ ds') (us ++ vs) r := by
  obtain ⟨d, v, hd, hv, hr, i, j, hmem⟩ := h
  refine ⟨d, v, ?_, hv, hr, i, j, ?_⟩
  · rw [List.find?_append, hds, Option.none_or, hd]
  · rw [List.flatMap_append]
    exact List.mem_append_right _ hmem

/-- What stops among the children of a node stops the node. -/
theorem inside (h : StopsAt m ds us r) (i : NodeId) (k : Kind) :
    StopsAt m ds [.node i k us] r := by
  obtain ⟨d, v, hd, hv, hr, j, j', hmem⟩ := h
  refine ⟨d, v, hd, hv, hr, j, j', ?_⟩
  rw [List.flatMap_singleton, Tree.subtrees_node]
  exact List.mem_cons_of_mem _ hmem

end StopsAt

/-- The tree is the literal for the value. -/
def IsLiteralFor {τ : Scalar} (v : τ.Meaning) (t : Tree) : Prop :=
  ∃ l j, l.Denotes v ∧ t = .node j (.ofLiteral l) []

theorem IsLiteralFor.integer {n : Int} {t : Tree} (h : IsLiteralFor (τ := .int) n t) :
    ∃ w j, w.toInt = n ∧ t = .node j (.integer w) [] := by
  obtain ⟨w | _, j, hw, rfl⟩ := h
  · exact ⟨w, j, hw, rfl⟩
  · exact hw.elim

theorem IsLiteralFor.boolean {b : Bool} {t : Tree} (h : IsLiteralFor (τ := .bool) b t) :
    ∃ j, t = .node j (.boolean b) [] := by
  obtain ⟨_ | c, j, hc, rfl⟩ := h
  · exact hc.elim
  · obtain rfl : c = b := hc
    exact ⟨j, rfl⟩

namespace ClosedExpr

variable {τ : Scalar} {m : String} {a : Bool} {us : List Tree} {r : Except Error Bool}

/-- Nothing is divided by zero, and the literal for the value is left. -/
def Computed (e : ClosedExpr τ) (us : List Tree) : Prop :=
  e.divisions.find? Division.byZero = none ∧
    ∃ v u, e.value? = some v ∧ IsLiteralFor v u ∧ us = [u]

/-- Folding the expression computes its value, or stops at the first division by
    zero. -/
def Evaluates (m : String) (e : ClosedExpr τ) : Prop :=
  ∀ {a us r}, Folds m a [e.tree] us r →
    (∃ b, e.Computed us ∧ r = .ok b) ∨ StopsAt m e.divisions us r

/-- Operands are computed one after the other. -/
theorem evaluates_operands {x y : ClosedExpr τ} (hx : x.Evaluates m) (hy : y.Evaluates m)
    (h : Folds m a [x.tree, y.tree] us r) :
    (∃ b, ((x.divisions ++ y.divisions).find? Division.byZero = none ∧
      ∃ v w u u', x.value? = some v ∧ y.value? = some w ∧ IsLiteralFor v u ∧
        IsLiteralFor w u' ∧ us = [u, u']) ∧ r = .ok b) ∨
      StopsAt m (x.divisions ++ y.divisions) us r := by
  rcases h.cons_cases with ⟨vs, ws, b, r', rfl, hvs, hws, rfl⟩ | ⟨vs, e, rfl, hvs, rfl⟩
  · rcases hx hvs with ⟨_, ⟨hdx, v, u, hv, hu, rfl⟩, -⟩ | hstop
    · rcases hy hws with ⟨c, ⟨hdy, w, u', hw, hu', rfl⟩, rfl⟩ | hstop
      · refine .inl ⟨_, ⟨?_, v, w, u, u', hv, hw, hu, hu', rfl⟩, rfl⟩
        rw [List.find?_append, hdx, hdy, Option.none_or]
      · obtain ⟨e, rfl⟩ := hstop.exists_eq_error
        exact .inr (hstop.append_right hdx [u])
    · obtain ⟨e, he⟩ := hstop.exists_eq_error
      cases he
  · rcases hx hvs with ⟨_, _, hr⟩ | hstop
    · cases hr
    · exact .inr hstop.append_left

/-- An expression is folded after its operands, if that does not stop. -/
theorem node_cases_of_operands {k : Kind} (hk : k.role = .expression) {i : NodeId}
    {cs : List Tree} {ds : List Division} {P : List Tree → Prop}
    (hcs : ∀ {vs r'}, Folds m k.holdsStatements cs vs r' →
      (∃ b, P vs ∧ r' = .ok b) ∨ StopsAt m ds vs r') (h : Folds m a [.node i k cs] us r) :
    (∃ vs, P vs ∧ match k.folded m (literalAt vs 0) (literalAt vs 1) with
      | .ok (some l) => (∃ j, us = [.node j (.ofLiteral l) []]) ∧ r = .ok true
      | .ok none => us = [.node i k vs] ∧ ∃ b, r = .ok b
      | .error e => us = [.node i k vs] ∧ r = .error e) ∨
    ∃ vs, us = [.node i k vs] ∧ StopsAt m ds vs r := by
  have hcontrol : ¬ k.isControl := by simp [Kind.isControl, hk]
  have hname : k.methodName? = none := by
    have hmethod : k.isMethod = false := Kind.isMethod_eq_false (by simp [hk])
    rwa [Kind.isMethod, Option.isSome_eq_false_iff, Option.isNone_iff_eq_none] at hmethod
  obtain ⟨vs, r', hvs, hr⟩ := h.node_cases hcontrol
  rw [hname, Option.getD_none] at hvs hr
  rcases hcs hvs with ⟨b, hp, rfl⟩ | hstop
  · refine .inl ⟨vs, hp, ?_⟩
    rcases hv : k.folded m (literalAt vs 0) (literalAt vs 1) with e | _ | l <;> rw [hv] at hr
    · exact hr
    · exact ⟨hr.1, b, hr.2⟩
    · exact hr
  · obtain ⟨e, rfl⟩ := hstop.exists_eq_error
    obtain ⟨rfl, rfl⟩ := hr
    exact .inr ⟨vs, rfl, hstop⟩

/-- After the operands, a division is by zero itself. -/
theorem find?_divisions_arithmetic {i : NodeId} {op : Arith} {x y : ClosedExpr .int} {w : Int32}
    (h : (x.divisions ++ y.divisions).find? Division.byZero = none)
    (hw : y.value? = some w.toInt) :
    (arithmetic i op x y).divisions.find? Division.byZero =
      if op = .div ∧ w = 0 then some ⟨i, x, y⟩ else none := by
  rw [divisions, List.find?_append, h, Option.none_or, ite_and]
  by_cases hop : op = .div
  · simp [hop, Division.byZero, hw, toInt_eq_zero_iff]
  · simp [hop]

/-- Folding a closed expression is evaluation. -/
theorem evaluates (m : String) (e : ClosedExpr τ) : e.Evaluates m := by
  induction e with
  | integer i v =>
    intro a us r h
    obtain ⟨rfl, rfl⟩ := Folds.eq_of_leaf (k := .integer v) Bool.false_ne_true (fun _ _ _ => rfl) h
    exact .inl ⟨false, ⟨rfl, v.toInt, _, rfl, ⟨.int v, i, rfl, rfl⟩, rfl⟩, rfl⟩
  | boolean i b =>
    intro a us r h
    obtain ⟨rfl, rfl⟩ := Folds.eq_of_leaf (k := .boolean b) Bool.false_ne_true (fun _ _ _ => rfl) h
    exact .inl ⟨false, ⟨rfl, b, _, rfl, ⟨.bool b, i, rfl, rfl⟩, rfl⟩, rfl⟩
  | parentheses i e ih =>
    intro a us r h
    rcases node_cases_of_operands rfl ih h with
      ⟨_, ⟨hdiv, v, _, hv, ⟨l, j, hl, rfl⟩, rfl⟩, hr⟩ | ⟨vs, rfl, hstop⟩
    · have hfold : Kind.parentheses.folded m (literalAt [.node j (.ofLiteral l) []] 0)
          (literalAt [.node j (.ofLiteral l) []] 1) = .ok (some l) := by
        rcases l with _ | _ <;> rfl
      rw [hfold] at hr
      obtain ⟨⟨j', rfl⟩, rfl⟩ := hr
      exact .inl ⟨true, ⟨hdiv, v, _, hv, ⟨l, j', hl, rfl⟩, rfl⟩, rfl⟩
    · exact .inr (hstop.inside i _)
  | negation i e ih =>
    intro a us r h
    rcases node_cases_of_operands rfl ih h with
      ⟨_, ⟨hdiv, v, _, hv, hu, rfl⟩, hr⟩ | ⟨vs, rfl, hstop⟩
    · obtain ⟨j, rfl⟩ := hu.boolean
      obtain ⟨⟨j', rfl⟩, rfl⟩ := hr
      refine .inl ⟨true, ⟨hdiv, !v, _, ?_, ⟨.bool !v, j', rfl, rfl⟩, rfl⟩, rfl⟩
      rw [value?, hv, Option.map_some]
    · exact .inr (hstop.inside i _)
  | arithmetic i op x y ihx ihy =>
    intro a us r h
    rcases node_cases_of_operands rfl (evaluates_operands ihx ihy) h with
      ⟨_, ⟨hdiv, n, n', u, u', hn, hn', hu, hu', rfl⟩, hr⟩ | ⟨vs, rfl, hstop⟩
    · obtain ⟨w, j, rfl, rfl⟩ := hu.integer
      obtain ⟨w', j', rfl, rfl⟩ := hu'.integer
      -- Both operands are literals by now, so it can only stop at a divisor of zero.
      cases hv : op.eval? w w' with
      | some v =>
        have hfold : (Kind.arithmetic op).folded m
            (literalAt [.node j (.integer w) [], .node j' (.integer w') []] 0)
            (literalAt [.node j (.integer w) [], .node j' (.integer w') []] 1) =
              .ok (some (.int v)) := by
          change (Kind.arithmetic op).folded m (some (.int w)) (some (.int w')) = _
          rw [Kind.folded, hv]
        rw [hfold] at hr
        obtain ⟨⟨j'', rfl⟩, rfl⟩ := hr
        refine .inl ⟨true, ⟨?_, v.toInt, _, ?_, ⟨.int v, j'', rfl, rfl⟩, rfl⟩, rfl⟩
        · rw [find?_divisions_arithmetic hdiv hn', if_neg]
          exact fun h => Option.some_ne_none v (hv.symm.trans (Arith.eval?_eq_none_iff.2 h))
        · have hop := op.eval?_eq w w'
          rw [hv] at hop
          rw [value?, hn, hn']
          exact hop.symm
      | none =>
        obtain ⟨rfl, rfl⟩ := Arith.eval?_eq_none_iff.1 hv
        obtain ⟨rfl, rfl⟩ := hr
        refine .inr ⟨⟨i, x, y⟩, w, ?_, hn, ?_, j, j', ?_⟩
        · rw [find?_divisions_arithmetic hdiv hn', if_pos ⟨rfl, rfl⟩]
        · rw [String.append_assoc, String.append_assoc, String.append_assoc]
          rfl
        · simp
    · exact .inr (hstop.inside i _).append_left
  | comparison i op x y ihx ihy =>
    intro a us r h
    rcases node_cases_of_operands rfl (evaluates_operands ihx ihy) h with
      ⟨_, ⟨hdiv, n, n', u, u', hn, hn', hu, hu', rfl⟩, hr⟩ | ⟨vs, rfl, hstop⟩
    · obtain ⟨w, j, rfl, rfl⟩ := hu.integer
      obtain ⟨w', j', rfl, rfl⟩ := hu'.integer
      obtain ⟨⟨j'', rfl⟩, rfl⟩ := hr
      refine .inl ⟨true, ⟨hdiv, op.eval w w', _, ?_, ⟨.bool _, j'', rfl, rfl⟩, rfl⟩, rfl⟩
      rw [value?, hn, hn', op.eval_eq]
      rfl
    · exact .inr (hstop.inside i _)
  | logical i op x y ihx ihy =>
    intro a us r h
    rcases node_cases_of_operands rfl (evaluates_operands ihx ihy) h with
      ⟨_, ⟨hdiv, v, v', u, u', hv, hv', hu, hu', rfl⟩, hr⟩ | ⟨vs, rfl, hstop⟩
    · obtain ⟨j, rfl⟩ := hu.boolean
      obtain ⟨j', rfl⟩ := hu'.boolean
      obtain ⟨⟨j'', rfl⟩, rfl⟩ := hr
      refine .inl ⟨true, ⟨hdiv, op.eval v v', _, ?_, ⟨.bool _, j'', rfl, rfl⟩, rfl⟩, rfl⟩
      rw [value?, hv, hv']
      rfl
    · exact .inr (hstop.inside i _)

end ClosedExpr

end Midend
