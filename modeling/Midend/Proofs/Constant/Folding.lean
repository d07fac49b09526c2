import Midend.Constant.Folding
import Midend.Proofs.Constant.Reduction
import Midend.Proofs.Tree.Shape

/-!
# What folding does to a tree

Folding as a relation between the trees that are visited, the trees that are in
their place afterwards, and the result (`Folds`). The relation knows of no forest:
it speaks of lists of trees that stand next to each other, since a statement may
give way to several or to none. It also says what is left when folding stops at an
error, where the trees that were not reached are as they were.

* `Edit.foldsTree_foldWithin`: the visit of a tree folds it, wherever it stands.
* `Edit.ensures_foldProgram`: so the pass folds what is below the root.
-/

namespace Midend

open Midend.Tree (ids)

/-- The value of a node whose first operands are the given literals. -/
def Kind.folded (method : String) : Kind → Option Literal → Option Literal →
    Except Error (Option Literal)
  | .parentheses, some l, _ => .ok (some l)
  | .negation, some (.bool b), _ => .ok (some (.bool !b))
  | .arithmetic op, some (.int x), some (.int y) =>
    match op.eval? x y with
    | some v => .ok (some (.int v))
    | none => .error (.divisionByZero method
        (Decimal.text x.toInt ++ " " ++ op.symbol ++ " " ++ Decimal.text y.toInt))
  | .comparison op, some (.int x), some (.int y) => .ok (some (.bool (op.eval x y)))
  | .logical op, some (.bool x), some (.bool y) => .ok (some (.bool (op.eval x y)))
  | _, _, _ => .ok none

/-- Only expressions have a value that is folded. -/
theorem Kind.folded_eq_none {k : Kind} (hk : ∀ n, ¬ k.takesOperands n) (m : String)
    (x y : Option Literal) : k.folded m x y = .ok none := by
  cases k with
  | parentheses | negation => exact absurd rfl (hk 1)
  | arithmetic | comparison | logical => exact absurd rfl (hk 2)
  | _ => rfl

/-- The literal that the tree at a place of a list is. -/
def literalAt (ts : List Tree) (n : Nat) : Option Literal := ts[n]?.bind Tree.literal?

/-- What has a value has operands. -/
theorem Kind.ne_nil_of_folded {k : Kind} {m : String} {ds : List Tree} {l : Literal}
    (h : k.folded m (literalAt ds 0) (literalAt ds 1) = .ok (some l)) : ds ≠ [] := by
  rintro rfl
  cases k <;> cases h

/-- Folding trees next to each other, within the named method. They stand in a list
    of statements or not. -/
inductive Folds : String → Bool → List Tree → List Tree → Except Error Bool → Prop
  | nil (m : String) (a : Bool) : Folds m a [] [] (.ok false)
  | cons {m : String} {a b : Bool} {t : Tree} {ts us vs : List Tree} {r : Except Error Bool} :
    ts ≠ [] → Folds m a [t] us (.ok b) → Folds m a ts vs r →
    Folds m a (t :: ts) (us ++ vs) (r.map (b || ·))
  | stop {m : String} {a : Bool} {t : Tree} {ts us : List Tree} {e : Error} :
    ts ≠ [] → Folds m a [t] us (.error e) → Folds m a (t :: ts) (us ++ ts) (.error e)
  -- A node that is no conditional and no loop has its value taken after its children.
  | inside {m : String} {a : Bool} {i : NodeId} {k : Kind} {cs ds : List Tree} {e : Error} :
    ¬ k.isControl → Folds (k.methodName?.getD m) k.holdsStatements cs ds (.error e) →
    Folds m a [.node i k cs] [.node i k ds] (.error e)
  | keep {m : String} {a b : Bool} {i : NodeId} {k : Kind} {cs ds : List Tree} :
    ¬ k.isControl → Folds (k.methodName?.getD m) k.holdsStatements cs ds (.ok b) →
    k.folded (k.methodName?.getD m) (literalAt ds 0) (literalAt ds 1) = .ok none →
    Folds m a [.node i k cs] [.node i k ds] (.ok b)
  | compute {m : String} {a b : Bool} {i : NodeId} {k : Kind} {cs ds : List Tree} {l : Literal}
    (j : NodeId) :
    ¬ k.isControl → Folds (k.methodName?.getD m) k.holdsStatements cs ds (.ok b) →
    k.folded (k.methodName?.getD m) (literalAt ds 0) (literalAt ds 1) = .ok (some l) →
    Folds m a [.node i k cs] [.node j (.ofLiteral l) []] (.ok true)
  | divide {m : String} {a b : Bool} {i : NodeId} {k : Kind} {cs ds : List Tree} {e : Error} :
    ¬ k.isControl → Folds (k.methodName?.getD m) k.holdsStatements cs ds (.ok b) →
    k.folded (k.methodName?.getD m) (literalAt ds 0) (literalAt ds 1) = .error e →
    Folds m a [.node i k cs] [.node i k ds] (.error e)
  -- A conditional or a loop needs a test that is no integer.
  | noTest (m : String) (a : Bool) (i : NodeId) {k : Kind} :
    k.isControl →
    Folds m a [.node i k []] [.node i k []] (.error (.malformed (.missingChild k.label i 0)))
  | test {m : String} {a : Bool} {i : NodeId} {k : Kind} {t : Tree} {us cs : List Tree}
    {e : Error} :
    k.isControl → Folds m false [t] us (.error e) →
    Folds m a [.node i k (t :: cs)] [.node i k (us ++ cs)] (.error e)
  | integerTest {m : String} {a b : Bool} {i : NodeId} {k : Kind} {t u : Tree} {cs : List Tree}
    {v : Int32} :
    k.isControl → Folds m false [t] [u] (.ok b) → u.literal? = some (.int v) →
    Folds m a [.node i k (t :: cs)] [.node i k (u :: cs)]
      (.error (.malformed (.integerCondition k.label i v)))
  -- A conditional with a settled test is left for the branch that is taken.
  | settledVacant {m : String} {a b c : Bool} {i : NodeId} {t u : Tree} {cs : List Tree}
    (j : NodeId) :
    Folds m false [t] [u] (.ok b) → u.literal? = some (.bool c) →
    (u :: cs)[branchIndex c]? = none →
    Folds m a [.node i .conditional (t :: cs)] (vacant a j) (.ok true)
  | settledInside {m : String} {a b c : Bool} {i : NodeId} {t u s : Tree} {l r vs : List Tree}
    {e : Error} :
    Folds m false [t] [u] (.ok b) → u.literal? = some (.bool c) →
    (u :: l).length = branchIndex c → Folds m false [s] vs (.error e) →
    Folds m a [.node i .conditional (t :: (l ++ s :: r))]
      [.node i .conditional (u :: (l ++ vs ++ r))] (.error e)
  | settled {m : String} {a b b' c : Bool} {i : NodeId} {t u s v : Tree} {l r : List Tree} :
    Folds m false [t] [u] (.ok b) → u.literal? = some (.bool c) →
    (u :: l).length = branchIndex c → Folds m false [s] [v] (.ok b') →
    Folds m a [.node i .conditional (t :: (l ++ s :: r))] (v.asBranch a) (.ok true)
  | unsettled {m : String} {a b : Bool} {i : NodeId} {t u : Tree} {cs ds : List Tree}
    {r : Except Error Bool} :
    Folds m false [t] [u] (.ok b) → u.literal? = none → Folds m false cs ds r →
    Folds m a [.node i .conditional (t :: cs)] [.node i .conditional (u :: ds)] (r.map (b || ·))
  -- A loop that is never entered is left out, and any other one kept.
  | skip {m : String} {a b : Bool} {i : NodeId} {t u : Tree} {cs : List Tree} (j : NodeId) :
    Folds m false [t] [u] (.ok b) → u.literal? = some (.bool false) →
    Folds m a [.node i .loop (t :: cs)] (vacant a j) (.ok true)
  | noBody {m : String} {a b : Bool} {i : NodeId} {t u : Tree} :
    Folds m false [t] [u] (.ok b) → u.literal? = none ∨ u.literal? = some (.bool true) →
    Folds m a [.node i .loop [t]] [.node i .loop [u]]
      (.error (.malformed (.missingChild Kind.loop.label i 1)))
  | loop {m : String} {a b : Bool} {i : NodeId} {t u s : Tree} {cs vs : List Tree}
    {r : Except Error Bool} :
    Folds m false [t] [u] (.ok b) → u.literal? = none ∨ u.literal? = some (.bool true) →
    Folds m false [s] vs r →
    Folds m a [.node i .loop (t :: s :: cs)] [.node i .loop (u :: (vs ++ cs))] (r.map (b || ·))

namespace Folds

variable {m : String} {a b : Bool} {t : Tree} {ts us vs : List Tree} {r : Except Error Bool}

theorem eq_nil (h : Folds m a [] us r) : us = [] ∧ r = .ok false := by
  cases h
  exact ⟨rfl, rfl⟩

theorem cons_ok (ht : Folds m a [t] us (.ok b)) (hts : Folds m a ts vs r) :
    Folds m a (t :: ts) (us ++ vs) (r.map (b || ·)) := by
  cases ts with
  | nil =>
    obtain ⟨rfl, rfl⟩ := hts.eq_nil
    simpa [Except.map] using ht
  | cons => exact .cons (List.cons_ne_nil _ _) ht hts

theorem cons_error {e : Error} (ht : Folds m a [t] us (.error e)) :
    Folds m a (t :: ts) (us ++ ts) (.error e) := by
  cases ts with
  | nil => simpa using ht
  | cons => exact .stop (List.cons_ne_nil _ _) ht

/-- Outside of lists of statements, each tree gives way to one tree. -/
theorem length_eq (h : Folds m a ts us r) (ha : a = false) : us.length = ts.length := by
  induction h with
  | nil => rfl
  | cons _ _ _ ih ih' => simp [ih ha, ih' ha, Nat.add_comm]
  | stop _ _ ih => simp [ih ha, Nat.add_comm]
  | settledVacant | skip => simp [vacant, ha]
  | settled => simp [Tree.asBranch, ha]
  | _ => rfl

theorem exists_eq (h : Folds m false [t] us r) : ∃ u, us = [u] :=
  List.length_eq_one_iff.1 (h.length_eq rfl)

/-- The first tree is folded, and the others are if that does not stop. -/
theorem cons_cases (h : Folds m a (t :: ts) us r) :
    (∃ vs ws b r', us = vs ++ ws ∧ Folds m a [t] vs (.ok b) ∧ Folds m a ts ws r' ∧
      r = r'.map (b || ·)) ∨
    ∃ vs e, us = vs ++ ts ∧ Folds m a [t] vs (.error e) ∧ r = .error e := by
  by_cases hts : ts = []
  · subst hts
    rcases r with e | b
    · exact .inr ⟨us, e, (List.append_nil us).symm, h, rfl⟩
    · refine .inl ⟨us, [], b, .ok false, (List.append_nil us).symm, h, .nil m a, ?_⟩
      rw [Except.map, Bool.or_false]
  · cases h with
    | cons _ ht hrest => exact .inl ⟨_, _, _, _, rfl, ht, hrest, rfl⟩
    | stop _ ht => exact .inr ⟨_, _, rfl, ht, rfl⟩
    | _ => exact absurd rfl hts

/-- Trees are folded, and those after them are if that does not stop. -/
theorem append_cases {ts' : List Tree} (h : Folds m a (ts ++ ts') us r) :
    (∃ vs ws b r', us = vs ++ ws ∧ Folds m a ts vs (.ok b) ∧ Folds m a ts' ws r' ∧
      r = r'.map (b || ·)) ∨
    ∃ vs e, us = vs ++ ts' ∧ Folds m a ts vs (.error e) ∧ r = .error e := by
  induction ts generalizing us r with
  | nil =>
    refine .inl ⟨[], us, false, r, rfl, .nil m a, h, ?_⟩
    rcases r with e | b <;> rfl
  | cons t ts ih =>
    rcases h.cons_cases with ⟨vs, ws, b, r', rfl, ht, hrest, rfl⟩ | ⟨vs, e, rfl, ht, rfl⟩
    · rcases ih hrest with ⟨xs, ys, c, r'', rfl, hts, hts', rfl⟩ | ⟨xs, e, rfl, hts, rfl⟩
      · refine .inl ⟨vs ++ xs, ys, b || c, r'', by rw [List.append_assoc], ht.cons_ok hts, hts', ?_⟩
        rcases r'' with e | d
        · rfl
        · simp only [Except.map, Bool.or_assoc]
      · exact .inr ⟨vs ++ xs, e, by rw [List.append_assoc], ht.cons_ok hts, rfl⟩
    · exact .inr ⟨vs ++ ts, e, (List.append_assoc vs ts ts').symm, ht.cons_error, rfl⟩

/-- A node that is no conditional and no loop is folded after its children, if that
    does not stop. -/
theorem node_cases {i : NodeId} {k : Kind} {cs : List Tree} (hk : ¬ k.isControl)
    (h : Folds m a [.node i k cs] us r) :
    ∃ ds r', Folds (k.methodName?.getD m) k.holdsStatements cs ds r' ∧
      match r', k.folded (k.methodName?.getD m) (literalAt ds 0) (literalAt ds 1) with
      | .ok _, .ok (some l) => (∃ j, us = [.node j (.ofLiteral l) []]) ∧ r = .ok true
      | .ok b, .ok none => us = [.node i k ds] ∧ r = .ok b
      | .ok _, .error e => us = [.node i k ds] ∧ r = .error e
      | .error e, _ => us = [.node i k ds] ∧ r = .error e := by
  cases h with
  | cons hts | stop hts => exact absurd rfl hts
  | inside _ h => exact ⟨_, _, h, rfl, rfl⟩
  | keep _ h hv =>
    refine ⟨_, _, h, ?_⟩
    rw [hv]
    exact ⟨rfl, rfl⟩
  | compute j _ h hv =>
    refine ⟨_, _, h, ?_⟩
    rw [hv]
    exact ⟨⟨j, rfl⟩, rfl⟩
  | divide _ h hv =>
    refine ⟨_, _, h, ?_⟩
    rw [hv]
    exact ⟨rfl, rfl⟩
  | noTest _ _ _ hk' | test hk' | integerTest hk' => exact absurd hk' hk
  | _ => exact absurd rfl hk

theorem eq_of_noTest {i : NodeId} {k : Kind} (hk : k.isControl)
    (h : Folds m a [.node i k []] us r) :
    us = [.node i k []] ∧ r = .error (.malformed (.missingChild k.label i 0)) := by
  cases h with
  | cons hts | stop hts => exact absurd rfl hts
  | inside hk' | keep hk' | compute _ hk' | divide hk' => exact absurd hk hk'
  | noTest => exact ⟨rfl, rfl⟩

/-- A conditional or a loop begins with its test, and stops if that is an integer. -/
theorem test_cases {i : NodeId} {k : Kind} {cs : List Tree} (hk : k.isControl)
    (h : Folds m a [.node i k (t :: cs)] us r) :
    (∃ vs e, Folds m false [t] vs (.error e) ∧ us = [.node i k (vs ++ cs)] ∧ r = .error e) ∨
    ∃ u b, Folds m false [t] [u] (.ok b) ∧ ∀ {v}, u.literal? = some (.int v) →
      us = [.node i k (u :: cs)] ∧ r = .error (.malformed (.integerCondition k.label i v)) := by
  cases h with
  | cons hts | stop hts => exact absurd rfl hts
  | inside hk' | keep hk' | compute _ hk' | divide hk' => exact absurd hk hk'
  | test _ ht => exact .inl ⟨_, _, ht, rfl, rfl⟩
  | integerTest _ ht hl =>
    refine .inr ⟨_, _, ht, fun hl' => ?_⟩
    rw [hl] at hl'
    cases hl'
    exact ⟨rfl, rfl⟩
  | settledVacant j ht hl | settledInside ht hl | settled ht hl | unsettled ht hl | skip j ht hl =>
    exact .inr ⟨_, _, ht, fun hl' => by simp [hl] at hl'⟩
  | noBody ht hl | loop ht hl =>
    exact .inr ⟨_, _, ht, fun hl' => by simp [hl'] at hl⟩

/-- A conditional is folded after its test, if that does not stop: the branch that
    is taken, or all branches. -/
theorem conditional_cases {i : NodeId} {cs : List Tree}
    (h : Folds m a [.node i .conditional (t :: cs)] us r) :
    (∃ vs e, Folds m false [t] vs (.error e) ∧ us = [.node i .conditional (vs ++ cs)] ∧
      r = .error e) ∨
    ∃ u b, Folds m false [t] [u] (.ok b) ∧ match u.literal? with
      | some (.int v) => us = [.node i .conditional (u :: cs)] ∧
        r = .error (.malformed (.integerCondition Kind.conditional.label i v))
      | some (.bool c) =>
        ((u :: cs)[branchIndex c]? = none ∧ (∃ j, us = vacant a j) ∧ r = .ok true) ∨
        ∃ l s l' vs r', cs = l ++ s :: l' ∧ (u :: l).length = branchIndex c ∧
          Folds m false [s] vs r' ∧ match r' with
            | .error e => us = [.node i .conditional (u :: (l ++ vs ++ l'))] ∧ r = .error e
            | .ok _ => us = vs.flatMap (·.asBranch a) ∧ r = .ok true
      | none => ∃ ds r', Folds m false cs ds r' ∧ us = [.node i .conditional (u :: ds)] ∧
        r = r'.map (b || ·) := by
  cases h with
  | cons hts | stop hts => exact absurd rfl hts
  | inside hk | keep hk | compute _ hk | divide hk => exact absurd rfl hk
  | test _ ht => exact .inl ⟨_, _, ht, rfl, rfl⟩
  | integerTest _ ht hl =>
    refine .inr ⟨_, _, ht, ?_⟩
    rw [hl]
    exact ⟨rfl, rfl⟩
  | settledVacant j ht hl hcs =>
    refine .inr ⟨_, _, ht, ?_⟩
    rw [hl]
    exact .inl ⟨hcs, ⟨j, rfl⟩, rfl⟩
  | settledInside ht hl hlen hs =>
    refine .inr ⟨_, _, ht, ?_⟩
    rw [hl]
    exact .inr ⟨_, _, _, _, _, rfl, hlen, hs, rfl, rfl⟩
  | settled ht hl hlen hs =>
    refine .inr ⟨_, _, ht, ?_⟩
    rw [hl]
    exact .inr ⟨_, _, _, _, _, rfl, hlen, hs, (List.flatMap_singleton _ _).symm, rfl⟩
  | unsettled ht hl hcs =>
    refine .inr ⟨_, _, ht, ?_⟩
    rw [hl]
    exact ⟨_, _, hcs, rfl, rfl⟩

/-- The body of a loop is folded after its test, if that does not stop and is not
    false. -/
theorem loop_cases {i : NodeId} {s : Tree} {cs : List Tree}
    (h : Folds m a [.node i .loop (t :: s :: cs)] us r) :
    (∃ vs e, Folds m false [t] vs (.error e) ∧ us = [.node i .loop (vs ++ s :: cs)] ∧
      r = .error e) ∨
    ∃ u b, Folds m false [t] [u] (.ok b) ∧ match u.literal? with
      | some (.int v) => us = [.node i .loop (u :: s :: cs)] ∧
        r = .error (.malformed (.integerCondition Kind.loop.label i v))
      | some (.bool false) => (∃ j, us = vacant a j) ∧ r = .ok true
      | _ => ∃ vs r', Folds m false [s] vs r' ∧ us = [.node i .loop (u :: (vs ++ cs))] ∧
        r = r'.map (b || ·) := by
  cases h with
  | cons hts | stop hts => exact absurd rfl hts
  | inside hk | keep hk | compute _ hk | divide hk => exact absurd rfl hk
  | test _ ht => exact .inl ⟨_, _, ht, rfl, rfl⟩
  | integerTest _ ht hl =>
    refine .inr ⟨_, _, ht, ?_⟩
    rw [hl]
    exact ⟨rfl, rfl⟩
  | skip j ht hl =>
    refine .inr ⟨_, _, ht, ?_⟩
    rw [hl]
    exact ⟨⟨j, rfl⟩, rfl⟩
  | loop ht hl hs =>
    refine .inr ⟨_, _, ht, ?_⟩
    rcases hl with hl | hl <;> rw [hl] <;> exact ⟨_, _, hs, rfl, rfl⟩

/-- A loop without a body stops after its test, unless that is false. -/
theorem noBody_cases {i : NodeId} (h : Folds m a [.node i .loop [t]] us r) :
    (∃ vs e, Folds m false [t] vs (.error e) ∧ us = [.node i .loop vs] ∧ r = .error e) ∨
    ∃ u b, Folds m false [t] [u] (.ok b) ∧
      (u.literal? = none ∨ u.literal? = some (.bool true) → us = [.node i .loop [u]] ∧
        r = .error (.malformed (.missingChild Kind.loop.label i 1))) := by
  cases h with
  | cons hts | stop hts => exact absurd rfl hts
  | inside hk | keep hk | compute _ hk | divide hk => exact absurd rfl hk
  | test _ ht => exact .inl ⟨_, _, ht, by simp, rfl⟩
  | integerTest _ ht hl | skip j ht hl => exact .inr ⟨_, _, ht, fun hl' => by simp [hl] at hl'⟩
  | noBody ht => exact .inr ⟨_, _, ht, fun _ => ⟨rfl, rfl⟩⟩

/-- A leaf that is no operator stays as it is. -/
theorem eq_of_leaf {i : NodeId} {k : Kind} (hk : ¬ k.isControl)
    (hv : ∀ m x y, k.folded m x y = .ok none) (h : Folds m a [.node i k []] us r) :
    us = [.node i k []] ∧ r = .ok false := by
  obtain ⟨ds, r', hds, hr⟩ := h.node_cases hk
  obtain ⟨rfl, rfl⟩ := hds.eq_nil
  rwa [hv] at hr

end Folds

/-! ## The pass on a forest -/

namespace Forest

variable {f : Forest} {i : NodeId} {k : Kind} {cs : List Tree}

theorem Reads.operand_eq (h : f.Reads (.node i k cs)) (n : Nat) :
    (f.children i)[n]?.bind f.literal? = literalAt cs n := by
  rw [show f.children i = cs.map Tree.root from h.children_eq, List.getElem?_map, literalAt]
  cases hc : cs[n]? with
  | none => rfl
  | some c => exact (h.of_mem_children (List.mem_of_getElem? hc)).literal?_eq

/-- An operand that is an integer shows as its decimal text. -/
theorem Reads.sourceTextWithin_int (h : f.Reads (.node i k cs)) {n : Nat} {v : Int32}
    (hv : literalAt cs n = some (.int v)) (d : Nat) :
    ((f.children i)[n]?.map (f.sourceTextWithin (d + 1))).getD "?" = Decimal.text v.toInt := by
  obtain ⟨⟨j, kc, ds⟩, hc, hl⟩ := Option.bind_eq_some_iff.1 hv
  have hkc : kc = .integer v := by
    cases kc <;> cases hl
    rfl
  have hj : f.kind? j = some kc := (h.of_mem_children (List.mem_of_getElem? hc)).kind?_eq
  rw [show f.children i = cs.map Tree.root from h.children_eq, List.getElem?_map, hc]
  change f.sourceTextWithin (d + 1) j = _
  rw [sourceTextWithin, hj, hkc]
  rfl

theorem Reads.foldedValue_eq (hf : f.Consistent) (h : f.Reads (.node i k cs)) (m : String) :
    f.foldedValue m i = k.folded m (literalAt cs 0) (literalAt cs 1) := by
  have hk : f.kind? i = some k := h.kind?_eq
  simp only [foldedValue, hk, h.operand_eq]
  cases k with
  | arithmetic op =>
    rcases hx : literalAt cs 0 with _ | (x | _) <;> rcases hy : literalAt cs 1 with _ | (y | _) <;>
      try rfl
    simp only [Kind.folded]
    cases op.eval? x y with
    | some v => rfl
    | none =>
      -- The message shows two levels of the tree, and there are at least two nodes.
      have hsize : 2 ≤ f.size := by
        obtain ⟨c, hc, -⟩ := Option.bind_eq_some_iff.1 hx
        have hids := hf.length_ids_le_size h
        have hlen := Tree.length_ids_le (List.mem_of_getElem? hc)
        have hpos := c.length_ids_pos
        rw [Tree.ids_node, List.length_cons] at hids
        omega
      obtain ⟨d, hd⟩ := Nat.exists_eq_add_of_le' hsize
      rw [sourceText, hd, sourceTextWithin, hk, ← h.sourceTextWithin_int hx,
        ← h.sourceTextWithin_int hy]
      rfl
  | negation | comparison | logical =>
    rcases literalAt cs 0 with _ | (_ | _) <;> rcases literalAt cs 1 with _ | (_ | _) <;> rfl
  | parentheses => cases literalAt cs 0 <;> rfl
  | _ => rfl

end Forest

namespace Edit

theorem sequential_folds (m : String) (a : Bool) : Sequential (Folds m a) where
  nil := .nil m a
  cons := Folds.cons_ok
  stop := Folds.cons_error

/-- The visit of a tree folds it, wherever it stands. -/
def FoldsTree (visit : NodeId → Edit Bool) (m : String) (t : Tree) : Prop :=
  ∀ a, Visits visit a (Folds m a) t

section Place

variable {visit : NodeId → Edit Bool} {m : String} {a : Bool} {holds : Forest → List Tree → Prop}
  {f : Forest} {i : NodeId} {cs : List Tree} (hplace : Place a holds)
include hplace

/-- A conditional or a loop folds its test, and goes on if that is no integer. -/
theorem ensures_foldTest {k : Kind} (hk : k.isControl)
    (hvisit : ∀ t ∈ cs, VisitsIn (fun f ts => holds f [.node i k ts]) visit (Folds m false) t)
    (h : holds f [.node i k cs]) {next : Bool → Option Bool → Edit Bool}
    (hnext : ∀ {t u : Tree} {ds : List Tree} {b : Bool} {v : Option Bool} {f₁ : Forest},
      cs = t :: ds → Folds m false [t] [u] (.ok b) → u.literal? = v.map .bool →
      holds f₁ [.node i k (u :: ds)] → Ensures (next b v) f₁ fun r f' =>
        ∃ us, Folds m a [.node i k cs] us r ∧ holds f' us) :
    Ensures (do
      let changed ← visit (← ask (·.child i 0))
      next changed (← ask (·.testValue i))) f fun r f' =>
        ∃ us, Folds m a [.node i k cs] us r ∧ holds f' us := by
  refine hplace.test h hvisit Folds.exists_eq ?_ ?_ ?_ hnext
  · rintro rfl
    exact ⟨_, .noTest m a i hk, h⟩
  · rintro t u ds e f' rfl hu h'
    exact ⟨_, .test hk hu, h'⟩
  · rintro t u ds b v f' rfl hu hl h'
    exact ⟨_, .integerTest hk hu hl, h'⟩

/-- A conditional is folded, given that the nodes below it are. -/
theorem ensures_foldConditional
    (hvisit : ∀ t ∈ cs,
      VisitsIn (fun f ts => holds f [.node i .conditional ts]) visit (Folds m false) t)
    (h : holds f [.node i .conditional cs]) :
    Ensures (foldConditional visit i) f fun r f' =>
      ∃ us, Folds m a [.node i .conditional cs] us r ∧ holds f' us := by
  refine ensures_foldTest hplace rfl hvisit h ?_
  rintro t u cs b (_ | c) f₁ rfl hu hl h₁ <;>
    rw [ensures_bind, ensures_get] <;>
    simp only [show f₁.children i = (u :: cs).map Tree.root from (hplace.reads h₁).children_eq]
  · have hrest : holds f₁ [.node i .conditional ([u] ++ cs ++ [])] := by simpa using h₁
    refine (ensures_visitAllIn (sequential_folds m false)
      (fun t ht => hvisit t (List.mem_cons_of_mem _ ht)) hrest).bind ?_ ?_
    · rintro b' f₂ ⟨ds, hds, h₂⟩
      exact ⟨_, .unsettled hu hl hds, by simpa using h₂⟩
    · rintro e f₂ ⟨ds, hds, h₂⟩
      exact ⟨_, .unsettled hu hl hds, by simpa using h₂⟩
  -- The test is settled. The place of the branch is read again after the visit, since
  -- another tree may be there by then.
  · rw [List.getElem?_map]
    cases hs : (u :: cs)[branchIndex c]? with
    | none =>
      refine (hplace.giveWay h₁ (List.cons_ne_nil _ _) (branchIndex c)).bind ?_ nofun
      rintro _ f₂ ⟨-, h₂⟩
      rw [hs] at h₂
      exact ⟨_, .settledVacant _ hu hl hs, h₂⟩
    | some s =>
      obtain ⟨l, r, rfl, hlen⟩ := exists_branch hs
      simp only [Option.map_some]
      rw [ensures_bind, ensures_discard]
      refine (hvisit s (by simp) (l := u :: l) (r := r) h₁).mono ?_
      rintro (e | b') f₂ ⟨vs, hvs, h₂⟩
      · exact ⟨_, .settledInside hu hl hlen hvs, h₂⟩
      · obtain ⟨v, rfl⟩ := hvs.exists_eq
        have hv : (u :: (l ++ v :: r))[branchIndex c]? = some v := by simp [← hlen]
        have h₃ : holds f₂ [.node i .conditional (u :: (l ++ v :: r))] := by simpa using h₂
        refine (hplace.giveWay h₃ (List.cons_ne_nil _ _) (branchIndex c)).bind ?_ nofun
        rintro _ f₄ ⟨-, h₄⟩
        rw [hv] at h₄
        exact ⟨_, .settled hu hl hlen hvs, h₄⟩

/-- A loop is folded, given that the nodes below it are. -/
theorem ensures_foldLoop
    (hvisit : ∀ t ∈ cs, VisitsIn (fun f ts => holds f [.node i .loop ts]) visit (Folds m false) t)
    (h : holds f [.node i .loop cs]) :
    Ensures (foldLoop visit i) f fun r f' =>
      ∃ us, Folds m a [.node i .loop cs] us r ∧ holds f' us := by
  refine ensures_foldTest hplace rfl hvisit h ?_
  rintro t u cs b v f₁ rfl hu hl h₁
  by_cases hv : v = some false
  · subst hv
    simp only [if_true, ensures_bind, ensures_pure]
    refine (hplace.giveWay_none h₁ (Tree.one_lt_weight (List.cons_ne_nil _ _))).mono ?_
    rintro _ f₂ ⟨rfl, h₂⟩
    exact ⟨_, .skip _ hu hl, h₂⟩
  · have hopen : u.literal? = none ∨ u.literal? = some (.bool true) := by
      rcases v with _ | _ | _ <;> simp_all
    simp only [if_neg hv]
    rw [ensures_bind, ensures_ask, (hplace.reads h₁).child_eq]
    cases cs with
    | nil => exact ⟨_, .noBody hu hopen, h₁⟩
    | cons s cs =>
      refine (hvisit s (by simp) (l := [u]) (r := cs) h₁).bind ?_ ?_
      · rintro b' f₂ ⟨vs, hvs, h₂⟩
        exact ⟨_, .loop hu hopen hvs, h₂⟩
      · rintro e f₂ ⟨vs, hvs, h₂⟩
        exact ⟨_, .loop hu hopen hvs, h₂⟩

/-- Any other node is folded after its children. -/
theorem ensures_foldChildren {k : Kind} (hk : ¬ k.isControl)
    (hvisit : ∀ t ∈ cs, VisitsIn (fun f ts => holds f [.node i k ts]) visit
      (Folds (k.methodName?.getD m) k.holdsStatements) t)
    (h : holds f [.node i k cs]) :
    Ensures (do
      let changed ← visitAll visit ((← get).children i)
      match ← ask (·.foldedValue (k.methodName?.getD m) i) with
      | some l =>
        replaceByLiteral i l
        return true
      | none => return changed) f fun r f' =>
        ∃ us, Folds m a [.node i k cs] us r ∧ holds f' us := by
  have hchildren : holds f [.node i k ([] ++ cs ++ [])] := by simpa using h
  rw [ensures_bind, ensures_get]
  simp only [show f.children i = cs.map Tree.root from (hplace.reads h).children_eq]
  refine (ensures_visitAllIn (sequential_folds _ _) hvisit hchildren).bind ?_ ?_
  · rintro b f₁ ⟨ds, hds, h₁⟩
    have h₂ : holds f₁ [.node i k ds] := by simpa using h₁
    rw [ensures_bind, ensures_ask, (hplace.reads h₂).foldedValue_eq (hplace.consistent h₂)]
    rcases hv : k.folded _ (literalAt ds 0) (literalAt ds 1) with e | _ | l
    · exact ⟨_, .divide hk hds hv, h₂⟩
    · exact ⟨_, .keep hk hds hv, h₂⟩
    · have hweight : 1 < (Tree.node i k ds).weight := Tree.one_lt_weight (Kind.ne_nil_of_folded hv)
      refine (hplace.replaceByLeaf h₂ hweight (.inr ⟨l, rfl⟩)).bind ?_ ?_
      · rintro _ f₃ ⟨-, h₃⟩
        exact ⟨_, .compute _ hk hds hv, h₃⟩
      · rintro e f₃ ⟨he, -⟩
        cases he
  · rintro e f₁ ⟨ds, hds, h₁⟩
    exact ⟨_, .inside hk hds, by simpa using h₁⟩

/-- A node is folded, given that the nodes below it are. -/
theorem ensures_foldWithin_succ {depth : Nat} {k : Kind}
    (hvisit : ∀ m, ∀ t ∈ cs, VisitsIn (fun f ts => holds f [.node i k ts]) (foldWithin depth m)
      (Folds m k.holdsStatements) t)
    (h : holds f [.node i k cs]) :
    Ensures (foldWithin (depth + 1) m i) f fun r f' =>
      ∃ us, Folds m a [.node i k cs] us r ∧ holds f' us := by
  have hk : f.kind? i = some k := (hplace.reads h).kind?_eq
  rw [foldWithin, ensures_bind, ensures_get]
  simp only [hk]
  split
  next heq =>
    cases heq
    exact ensures_foldConditional hplace (hvisit m) h
  next heq =>
    cases heq
    exact ensures_foldLoop hplace (hvisit m) h
  next hcond hloop =>
    have hcontrol : ¬ k.isControl := fun hc =>
      (Kind.eq_of_isControl hc).elim (fun h => hcond (h ▸ rfl)) fun h => hloop (h ▸ rfl)
    exact ensures_foldChildren hplace hcontrol (hvisit _) h

end Place

/-- A tree is folded down to a depth that it does not exceed. -/
theorem foldsTree_foldWithin (depth : Nat) (m : String) (t : Tree) (hd : t.ids.length ≤ depth) :
    FoldsTree (foldWithin depth m) m t := by
  -- A child has fewer nodes than its parent, so that the depth suffices for it.
  induction depth generalizing m t with
  | zero => exact absurd hd (Nat.not_le.2 t.length_ids_pos)
  | succ depth ih =>
    obtain ⟨i, k, cs⟩ := t
    intro a f p g C ha h
    refine ensures_foldWithin_succ (place_context ha) (fun m t ht => ?_) h
    have hle := Tree.length_ids_le ht
    rw [Tree.ids_node, List.length_cons] at hd
    exact (ih m t (by omega) _).inside rfl C i

/-- The children of the root are folded, if the root is no conditional, no loop and
    no expression. -/
theorem ensures_foldProgram {f : Forest} {i : NodeId} {k : Kind} {cs : List Tree}
    (h : f.Carries (.node i k cs)) (hk : ¬ k.isControl)
    (hv : ∀ m x y, k.folded m x y = .ok none) :
    Ensures foldProgram f fun r f' =>
      ∃ ds, Folds (k.methodName?.getD outsideMethods) k.holdsStatements cs ds r ∧
        f'.Carries (.node i k ds) := by
  have hsize := h.consistent.length_ids_le_size h.reads
  rw [Tree.ids_node, List.length_cons] at hsize
  obtain ⟨depth, hdepth⟩ : ∃ depth, f.size = depth + 1 := ⟨f.size - 1, by omega⟩
  have hkind : f.kind? i = some k := h.reads.kind?_eq
  have hvisit : ∀ m, ∀ t ∈ cs, FoldsTree (foldWithin depth m) m t := fun m t ht =>
    foldsTree_foldWithin depth m t (by have := Tree.length_ids_le ht; omega)
  have hchildren : Reduces f (.node i k cs) f ((Context.allChildren i k []).plug cs) := by
    simpa using Reduces.refl h.shows
  -- The root is in no place of a context, so its own visit is taken apart here.
  rw [foldProgram, ensures_bind, ensures_get]
  simp only [hdepth, show f.root = i from h.root_eq]
  rw [foldWithin, ensures_bind, ensures_get]
  simp only [hkind]
  split
  next heq =>
    cases heq
    exact absurd rfl hk
  next heq =>
    cases heq
    exact absurd rfl hk
  · rw [ensures_bind, ensures_get]
    simp only [show f.children i = cs.map Tree.root from h.reads.children_eq]
    refine (ensures_visitAll (sequential_folds _ _) (fun t ht => hvisit _ t ht _) rfl
      hchildren).bind ?_ ?_
    · rintro b f₁ ⟨ds, hds, h₁⟩
      have h₂ : f₁.Carries (.node i k ds) := Reduces.carries (by simpa using h₁) h
      rw [ensures_bind, ensures_ask, h₂.reads.foldedValue_eq h₂.consistent, hv]
      exact ⟨ds, hds, h₂⟩
    · rintro e f₁ ⟨ds, hds, h₁⟩
      exact ⟨ds, hds, Reduces.carries (by simpa using h₁) h⟩

end Edit

end Midend
