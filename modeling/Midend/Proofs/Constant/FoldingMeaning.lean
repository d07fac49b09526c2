import Midend.Proofs.Constant.Folding
import Midend.Proofs.Constant.Settled

/-!
# Folding preserves meaning

A literal that takes the place of an expression has the value of the expression in
every state, since only operators on literals are folded, and a division by zero is
not. Statements that give way to others have a settled test, and behave as what
they leave. So each method means what it meant, also when folding stops half-way:
at an error the trees so far are folded and the others are as they were, and both
mean the same.

* `Folds.eval_eq`, `Folds.same`: folded expressions have the same values, and
  folded statements the same runs.
* `foldProgram_preserves_outcomes`: folding changes the outcomes of no method.
-/

namespace Midend

open Midend.Tree

variable {ρ ω : Type} {R : Runtime ρ ω} {L : NameSet}

namespace Runtime

/-- The value of an operator on literals is that of folding. -/
theorem value_of_folded {m : String} {k : Kind} {cs : List Tree} {l : Literal}
    (hk : k.takesOperands cs.length)
    (h : k.folded m (literalAt cs 0) (literalAt cs 1) = .ok (some l)) (s : Store ρ) :
    R.value L s k (cs.map (R.eval L s)) = pure l.value := by
  have heval : ∀ {t : Tree} {l : Literal}, t.literal? = some l → R.eval L s t = pure l.value :=
    fun ht => R.eval_of_literal? L ht s
  cases k with
  | parentheses =>
    obtain ⟨x, rfl⟩ := List.length_eq_one_iff.1 (of_decide_eq_true hk)
    change Kind.folded m .parentheses x.literal? _ = _ at h
    rcases hx : x.literal? with _ | lx <;> rw [hx] at h <;> cases h
    exact heval hx
  | negation =>
    obtain ⟨x, rfl⟩ := List.length_eq_one_iff.1 (of_decide_eq_true hk)
    change Kind.folded m .negation x.literal? _ = _ at h
    rcases hx : x.literal? with _ | _ | b <;> rw [hx] at h <;> cases h
    rw [List.map_singleton, heval hx]
    rfl
  | arithmetic op =>
    obtain ⟨x, y, rfl⟩ := List.length_eq_two.1 (of_decide_eq_true hk)
    change Kind.folded m (.arithmetic op) x.literal? y.literal? = _ at h
    rcases hx : x.literal? with _ | u | _ <;> rcases hy : y.literal? with _ | v | _ <;>
      rw [hx, hy] at h <;> try cases h
    cases hv : op.eval? u v with
    | none =>
      simp only [Kind.folded, hv] at h
      cases h
    | some w =>
      simp only [Kind.folded, hv] at h
      cases h
      rw [List.map_cons, List.map_singleton, heval hx, heval hy]
      change Value.arithmetic op (.int u) (.int v) = _
      simp only [Value.arithmetic, hv]
      rfl
  | comparison op =>
    obtain ⟨x, y, rfl⟩ := List.length_eq_two.1 (of_decide_eq_true hk)
    change Kind.folded m (.comparison op) x.literal? y.literal? = _ at h
    rcases hx : x.literal? with _ | u | _ <;> rcases hy : y.literal? with _ | v | _ <;>
      rw [hx, hy] at h <;> cases h
    rw [List.map_cons, List.map_singleton, heval hx, heval hy]
    rfl
  | logical op =>
    obtain ⟨x, y, rfl⟩ := List.length_eq_two.1 (of_decide_eq_true hk)
    change Kind.folded m (.logical op) x.literal? y.literal? = _ at h
    rcases hx : x.literal? with _ | _ | u <;> rcases hy : y.literal? with _ | _ | v <;>
      rw [hx, hy] at h <;> cases h
    rw [List.map_cons, List.map_singleton, heval hx, heval hy]
    cases op <;> cases u <;> rfl
  | _ => cases h

/-- The trees mean the same: as a list of statements, or one by one where each
    stands for itself. -/
def Same (R : Runtime ρ ω) (L : NameSet) (a : Bool) (us ts : List Tree) : Prop :=
  if a then R.run L us = R.run L ts else us.map (R.exec L) = ts.map (R.exec L)

namespace Same

variable {a : Bool} {ts us vs ws : List Tree}

theorem of_map (h : us.map (R.exec L) = ts.map (R.exec L)) : R.Same L a us ts := by
  cases a with
  | false => exact h
  | true => exact congrArg Behavior.inOrder h

theorem append (h : R.Same L a us ts) (h' : R.Same L a ws vs) :
    R.Same L a (us ++ ws) (ts ++ vs) := by
  cases a with
  | false =>
    change (us ++ ws).map _ = (ts ++ vs).map _
    rw [List.map_append, List.map_append, show us.map _ = ts.map _ from h,
      show ws.map _ = vs.map _ from h']
  | true =>
    change R.run L (us ++ ws) = R.run L (ts ++ vs)
    rw [run_append, run_append, show R.run L us = _ from h, show R.run L ws = _ from h']

theorem asBranch {t v : Tree} (h : R.exec L v = R.exec L t) : R.Same L a (v.asBranch a) [t] := by
  cases a with
  | false => exact .of_map (congrArg (fun b => [b]) h)
  | true => exact (run_asBranch v true).trans (h.trans (R.run_singleton L t).symm)

theorem vacant {t : Tree} (h : .skip = R.exec L t) (i : NodeId) :
    R.Same L a (Midend.vacant a i) [t] := by
  cases a with
  | false =>
    refine .of_map (congrArg (fun b => [b]) ?_)
    rw [exec_block, run_nil, h]
  | true => exact (run_vacant true i).trans (h.trans (R.run_singleton L t).symm)

end Same

end Runtime

namespace Folds

variable {m : String} {a : Bool} {ts us : List Tree} {r : Except Error Bool}

/-- Folded expressions have the values that they had. -/
theorem eval_eq (h : Folds m a ts us r) (he : ∀ t ∈ ts, t.IsExpr) (s : Store ρ) :
    us.map (R.eval L s) = ts.map (R.eval L s) := by
  induction h with
  | nil => rfl
  | cons _ _ _ ih ih' =>
    rw [List.map_append, ih (by simp_all), ih' (by simp_all), List.map_cons]
    rfl
  | stop _ _ ih =>
    rw [List.map_append, ih (by simp_all)]
    rfl
  | inside _ _ ih | keep _ _ _ ih | divide _ _ _ ih =>
    have ht := he _ (List.mem_singleton.2 rfl)
    simp only [List.map_singleton, Runtime.eval_node, ih fun c => ht.of_mem]
  | compute j _ hds hv ih =>
    have ht := he _ (List.mem_singleton.2 rfl)
    have hk := ht.takesOperands
    -- The operands after folding are literals, with the values of those before.
    rw [← hds.length_eq (Kind.holdsStatements_of_takesOperands hk)] at hk
    rw [List.map_singleton, List.map_singleton, Runtime.eval_ofLiteral, Runtime.eval_node,
      ← ih fun c => ht.of_mem, Runtime.value_of_folded hk hv]
  | noTest _ _ _ hk | test hk | integerTest hk =>
    have ht := he _ (List.mem_singleton.2 rfl)
    exact absurd hk (Kind.not_isControl_of_takesOperands ht.takesOperands)
  | _ =>
    have ht := he _ (List.mem_singleton.2 rfl)
    exact absurd rfl (Kind.not_isControl_of_takesOperands ht.takesOperands)

theorem eval_test_eq {t u : Tree} (h : Folds m a [t] [u] r) (ht : t.IsExpr) (s : Store ρ) :
    R.eval L s u = R.eval L s t :=
  List.singleton_inj.1 (h.eval_eq (by simpa using ht) s)

theorem eval_test_eq_pure {t u : Tree} {c : Bool} (h : Folds m a [t] [u] r) (ht : t.IsExpr)
    (hu : u.literal? = some (.bool c)) (s : Store ρ) : R.eval L s t = pure (.bool c) :=
  (h.eval_test_eq ht s).symm.trans (R.eval_of_literal? L hu s)

/-- A statement that is no conditional and no loop behaves as before when its
    children are folded. -/
theorem exec_node_eq {i : NodeId} {k : Kind} {cs ds : List Tree} (hk : ¬ k.isControl)
    (h : Folds m k.holdsStatements cs ds r)
    (ih : (∀ c ∈ cs, c.IsStmt) → R.Same L k.holdsStatements ds cs)
    {d : Prop} (ht : (node i k cs).IsItem d) :
    R.exec L (.node i k ds) = R.exec L (.node i k cs) := by
  rcases ht with ⟨-, ht⟩ | ht
  · cases ht
    rw [h.eq_nil.1]
  · cases ht with
    | simple _ hk hcs => exact funext fun s => Runtime.exec_simple_congr hk (h.eval_eq hcs s.locals)
    | block _ hcs =>
      rw [Runtime.exec_block, Runtime.exec_block]
      exact ih hcs
    | conditional | loop => exact absurd rfl hk

/-- A conditional or a loop behaves as before when its test is folded and the
    statements in it behave as before. -/
theorem same_control {i : NodeId} {k : Kind} {t u : Tree} {cs ds : List Tree} {b : Bool}
    (h : Folds m false [t] [u] r) (hk : k.isControl) (ht : IsStmt (.node i k (t :: cs)))
    (hds : ds.map (R.exec L) = cs.map (R.exec L)) :
    R.Same L b [.node i k (u :: ds)] [.node i k (t :: cs)] := by
  refine .of_map (congrArg (fun b => [b]) (funext fun s => ?_))
  -- Folding needs no property of the states: the tests are equal in all of them.
  rw [← List.forall₂_eq_eq_eq, List.forall₂_map_left_iff, List.forall₂_map_right_iff] at hds
  exact Runtime.exec_control_congr (P := fun _ => True) hk ht
    (fun s _ => h.eval_test_eq (ht.isExpr_test hk) s) (hds.imp fun _ _ heq s _ => congrFun heq s)
    (fun _ _ _ _ _ _ _ _ => trivial) trivial

/-- Folded statements mean what they meant. -/
theorem same {d : Prop} (h : Folds m a ts us r) (hts : ∀ t ∈ ts, t.IsItem d) :
    R.Same L a us ts := by
  induction h with
  | nil => exact .of_map rfl
  | cons _ _ _ ih ih' =>
    exact (ih (by simp_all)).append (ih' (by simp_all))
  | stop _ _ ih => exact (ih (by simp_all)).append (.of_map rfl)
  | inside hk h ih | keep hk h _ ih | divide hk h _ ih =>
    refine .of_map ?_
    rw [List.map_singleton, List.map_singleton,
      h.exec_node_eq hk (fun hcs => ih fun c hc => (hcs c hc).isItem)
        (hts _ (List.mem_singleton.2 rfl))]
  | compute j hk _ hv =>
    -- No statement has a value.
    have ht := (hts _ (List.mem_singleton.2 rfl)).not_takesOperands
    cases (Kind.folded_eq_none ht _ _ _).symm.trans hv
  | noTest => exact .of_map rfl
  | test hk h =>
    have ht := (hts _ (List.mem_singleton.2 rfl)).isStmt hk
    obtain ⟨u, rfl⟩ := h.exists_eq
    exact h.same_control hk ht rfl
  | integerTest hk h =>
    have ht := (hts _ (List.mem_singleton.2 rfl)).isStmt hk
    exact h.same_control hk ht rfl
  | settledVacant j h hl hbs =>
    have ht := (hts _ (List.mem_singleton.2 rfl)).isStmt rfl
    refine .vacant (funext fun s => (Runtime.exec_of_not_taken
      (h.eval_test_eq_pure (ht.isExpr_test rfl) hl s.locals) ht.branches.1 ?_).symm) j
    exact List.getElem?_eq_none_iff.1 hbs
  | settledInside h hl hlen h' _ ih =>
    have ht := (hts _ (List.mem_singleton.2 rfl)).isStmt rfl
    have hs := ih fun b hb => .inr (ht.branches.2 b (by simp_all))
    refine h.same_control rfl ht ?_
    rw [List.map_append, List.map_append, show List.map _ _ = List.map _ _ from hs]
    simp
  | settled h hl hlen h' _ ih =>
    have ht := (hts _ (List.mem_singleton.2 rfl)).isStmt rfl
    have hs := ih fun b hb => .inr (ht.branches.2 b (by simp_all))
    refine .asBranch (funext fun s => ?_)
    rw [List.singleton_inj.1 hs]
    exact (Runtime.exec_of_taken (h.eval_test_eq_pure (ht.isExpr_test rfl) hl s.locals)
      ht.branches.1 hlen).symm
  | unsettled h hl h' _ ih =>
    have ht := (hts _ (List.mem_singleton.2 rfl)).isStmt rfl
    refine h.same_control rfl ht ?_
    exact ih fun b hb => .inr (ht.branches.2 b hb)
  | skip j h hl =>
    have ht := (hts _ (List.mem_singleton.2 rfl)).isStmt rfl
    obtain ⟨b, rfl, hb⟩ := ht.body
    refine .vacant (funext fun s => (Runtime.exec_of_skipped b ?_).symm) j
    exact h.eval_test_eq_pure (ht.isExpr_test rfl) hl s.locals
  | noBody h hl =>
    have ht := (hts _ (List.mem_singleton.2 rfl)).isStmt rfl
    exact h.same_control rfl ht rfl
  | loop h hl h' _ ih =>
    have ht := (hts _ (List.mem_singleton.2 rfl)).isStmt rfl
    obtain ⟨b, hcs, hb⟩ := ht.body
    obtain ⟨rfl, rfl⟩ := List.cons.inj hcs
    refine h.same_control rfl ht ?_
    rw [List.append_nil]
    exact ih fun c hc => .inr (by simp_all)

/-! ## Shape -/

/-- Folded expressions are expressions. -/
theorem isExpr (h : Folds m a ts us r) (he : ∀ t ∈ ts, t.IsExpr) : ∀ u ∈ us, u.IsExpr := by
  induction h with
  | nil => exact he
  | cons _ _ _ ih ih' =>
    intro u hu
    exact (List.mem_append.1 hu).elim (ih (by simp_all) u) (ih' (by simp_all) u)
  | stop _ _ ih =>
    intro u hu
    exact (List.mem_append.1 hu).elim (ih (by simp_all) u) (he u ∘ List.mem_cons_of_mem _)
  | inside _ h ih | keep _ h _ ih | divide _ h _ ih =>
    have ht := he _ (List.mem_singleton.2 rfl)
    have hlen := h.length_eq (Kind.holdsStatements_of_takesOperands ht.takesOperands)
    rintro u hu
    obtain rfl := List.mem_singleton.1 hu
    exact .node _ (hlen ▸ ht.takesOperands) (ih fun c => ht.of_mem)
  | compute j =>
    rintro u hu
    obtain rfl := List.mem_singleton.1 hu
    refine .node j ?_ fun c hc => absurd hc List.not_mem_nil
    cases ‹Literal› <;> rfl
  | noTest _ _ _ hk | test hk | integerTest hk =>
    have ht := he _ (List.mem_singleton.2 rfl)
    exact absurd hk (Kind.not_isControl_of_takesOperands ht.takesOperands)
  | _ =>
    have ht := he _ (List.mem_singleton.2 rfl)
    exact absurd rfl (Kind.not_isControl_of_takesOperands ht.takesOperands)

theorem isExpr_test {t u : Tree} (h : Folds m a [t] [u] r) (ht : t.IsExpr) : u.IsExpr :=
  h.isExpr (by simpa using ht) u (List.mem_singleton.2 rfl)

theorem keepsShape_node {d : Prop} {i : NodeId} {k : Kind} {cs ds : List Tree} (hk : ¬ k.isControl)
    (h : Folds m k.holdsStatements cs ds r)
    (ih : ∀ {d : Prop}, (∀ c ∈ cs, c.IsItem d) → KeepsShape d ds cs)
    (ht : (node i k cs).IsItem d) : KeepsShape d [.node i k ds] [.node i k cs] := by
  rcases ht with ⟨hd, ht⟩ | ht
  · cases ht with
    | node _ hk =>
      obtain rfl := h.eq_nil.1
      exact ⟨by simpa using .inl ⟨hd, .node i hk⟩, rfl⟩
  · refine .of_isStmt ?_ (by simpa using ht)
    intro u hu
    obtain rfl := List.mem_singleton.1 hu
    cases ht with
    | simple _ hk hcs =>
      have hlen := h.length_eq (Kind.holdsStatements_of_takesExpressions hk)
      exact .simple i (hlen ▸ hk) (h.isExpr hcs)
    | block _ hcs => exact .block i (ih (d := False) fun c hc => (hcs c hc).isItem).isStmt
    | conditional | loop => exact absurd rfl hk

/-- Folded statements are statements. -/
theorem keepsShape {d : Prop} (h : Folds m a ts us r)
    (hts : ∀ t ∈ ts, t.IsItem d) : KeepsShape d us ts := by
  induction h generalizing d with
  | nil => exact ⟨hts, rfl⟩
  | cons _ _ _ ih ih' => exact (ih (by simp_all)).append (ih' (by simp_all))
  | stop _ _ ih => exact (ih (by simp_all)).append ⟨by simp_all, rfl⟩
  | inside hk h ih | keep hk h _ ih | divide hk h _ ih =>
    exact h.keepsShape_node hk ih (hts _ (List.mem_singleton.2 rfl))
  | compute j _ _ hv =>
    have ht := (hts _ (List.mem_singleton.2 rfl)).not_takesOperands
    cases (Kind.folded_eq_none ht _ _ _).symm.trans hv
  | noTest => exact ⟨hts, rfl⟩
  | test hk h =>
    have ht := (hts _ (List.mem_singleton.2 rfl)).isStmt hk
    obtain ⟨u, rfl⟩ := h.exists_eq
    exact .control hk ht (h.isExpr_test (ht.isExpr_test hk)) rfl fun c => ht.of_mem_control hk
  | integerTest hk h =>
    have ht := (hts _ (List.mem_singleton.2 rfl)).isStmt hk
    exact .control hk ht (h.isExpr_test (ht.isExpr_test hk)) rfl fun c => ht.of_mem_control hk
  | settledVacant | skip =>
    have ht := (hts _ (List.mem_singleton.2 rfl)).isStmt rfl
    exact .of_isStmt (fun u => isStmt_vacant) (by simpa using ht)
  | @settledInside _ _ _ _ _ _ _ _ _ _ vs _ h hl hlen h' _ ih =>
    have ht := (hts _ (List.mem_singleton.2 rfl)).isStmt rfl
    have hvs := (ih (d := False) fun b hb => (ht.branches.2 b (by simp_all)).isItem).isStmt
    refine .control rfl ht (h.isExpr_test (ht.isExpr_test rfl))
      (by simp [h'.length_eq, Nat.add_comm]) ?_
    intro c hc
    by_cases hcv : c ∈ vs
    · exact hvs c hcv
    · refine ht.of_mem_control rfl ?_
      simp only [List.mem_append, List.mem_cons] at hc ⊢
      tauto
  | settled h hl hlen h' _ ih =>
    have ht := (hts _ (List.mem_singleton.2 rfl)).isStmt rfl
    have hv := (ih (d := False) fun b hb => (ht.branches.2 b (by simp_all)).isItem).isStmt
    exact .of_isStmt (fun u => (hv _ (List.mem_singleton.2 rfl)).asBranch) (by simpa using ht)
  | unsettled h hl h' _ ih =>
    have ht := (hts _ (List.mem_singleton.2 rfl)).isStmt rfl
    refine .control rfl ht (h.isExpr_test (ht.isExpr_test rfl)) (h'.length_eq rfl) ?_
    exact (ih (d := False) fun b hb => (ht.branches.2 b hb).isItem).isStmt
  | noBody h hl =>
    have ht := (hts _ (List.mem_singleton.2 rfl)).isStmt rfl
    exact .control rfl ht (h.isExpr_test (ht.isExpr_test rfl)) rfl fun c => ht.of_mem_control rfl
  | loop h hl h' _ ih =>
    have ht := (hts _ (List.mem_singleton.2 rfl)).isStmt rfl
    obtain ⟨b, hcs, hb⟩ := ht.body
    obtain ⟨rfl, rfl⟩ := List.cons.inj hcs
    have hvs := (ih (d := False) (by simpa using hb.isItem)).isStmt
    exact .control rfl ht (h.isExpr_test (ht.isExpr_test rfl)) (by simp [h'.length_eq])
      (by simpa using hvs)

/-! ## Methods -/

/-- What is around methods keeps its shape, and its methods mean what they
    meant. -/
theorem wellShaped_node {i : NodeId} {k : Kind} {cs ds : List Tree}
    (h : Folds m k.holdsStatements cs ds r) (ht : WellShaped (.node i k cs))
    (ih : (∀ c ∈ cs, WellShaped c) → (∀ d ∈ ds, WellShaped d) ∧ SameMethods ds cs) :
    WellShaped (.node i k ds) ∧ SameMethods [.node i k ds] [.node i k cs] := by
  cases ht with
  | method _ hk hcs =>
    have hamong : k.holdsStatements = true := by simp [Kind.holdsStatements, hk]
    rw [hamong] at h
    exact (h.keepsShape hcs).sameMethods hk hcs fun R => h.same hcs
  | scope _ hk hcs =>
    obtain ⟨hds, hsame⟩ := ih hcs
    exact WellShaped.scope_congr hk hds hsame
  | importDecl _ path =>
    obtain rfl := h.eq_nil.1
    exact ⟨.importDecl i path, .refl _⟩
  | field _ name type =>
    obtain rfl := h.eq_nil.1
    exact ⟨.field i name type, .refl _⟩

theorem wellShaped (h : Folds m a ts us r) (hts : ∀ t ∈ ts, WellShaped t) :
    (∀ u ∈ us, WellShaped u) ∧ SameMethods us ts := by
  induction h with
  | nil => exact ⟨hts, .refl _⟩
  | cons _ _ _ ih ih' =>
    obtain ⟨hus, hsame⟩ := ih (by simp_all)
    obtain ⟨hvs, hsame'⟩ := ih' (by simp_all)
    exact ⟨fun u hu => (List.mem_append.1 hu).elim (hus u) (hvs u), hsame.append hsame'⟩
  | stop _ _ ih =>
    obtain ⟨hus, hsame⟩ := ih (by simp_all)
    exact ⟨fun u hu => (List.mem_append.1 hu).elim (hus u) (hts u ∘ List.mem_cons_of_mem _),
      hsame.append (.refl _)⟩
  | inside _ h ih | keep _ h _ ih | divide _ h _ ih =>
    simpa using h.wellShaped_node (hts _ (List.mem_singleton.2 rfl)) ih
  | compute j _ _ hv =>
    have ht := (hts _ (List.mem_singleton.2 rfl)).not_takesOperands
    cases (Kind.folded_eq_none ht _ _ _).symm.trans hv
  | noTest _ _ _ hk | test hk | integerTest hk =>
    exact absurd hk (hts _ (List.mem_singleton.2 rfl)).not_isControl
  | _ => exact absurd rfl (hts _ (List.mem_singleton.2 rfl)).not_isControl

end Folds

/-- Folding changes the outcomes of no method, whether it ends or stops at an
    error. -/
theorem foldProgram_preserves_outcomes {f : Forest} {t : Tree} (hf : f.Carries t)
    (ht : t.WellShaped) :
    (after Edit.foldProgram f).methods = f.methods ∧
      ∀ m ∈ f.methods, ∀ {ρ ω : Type} (R : Runtime ρ ω),
        (after Edit.foldProgram f).Outcomes R m = f.Outcomes R m := by
  obtain ⟨i, k, cs⟩ := t
  have hv := Kind.folded_eq_none ht.not_takesOperands
  obtain ⟨r, ds, hds, hf'⟩ := (Edit.ensures_foldProgram hf ht.not_isControl hv).after
  exact Forest.sameOutcomes_of_sameMethods hf hf' (hds.wellShaped_node ht hds.wellShaped).2

/-- A method that assigns a sum, and divides by zero in a branch that is taken. -/
def divisionInBranch : Forest where
  nodes := #[
    { kind := .program, children := [1] },
    { kind := .method "f", parent := some 0, children := [2, 3, 7] },
    { kind := .varDecl "x" "int", parent := some 1 },
    { kind := .assignment "x", parent := some 1, children := [4] },
    { kind := .arithmetic .add, parent := some 3, children := [5, 6] },
    { kind := .integer 1, parent := some 4 },
    { kind := .integer 2, parent := some 4 },
    { kind := .conditional, parent := some 1, children := [8, 11] },
    { kind := .comparison .less, parent := some 7, children := [9, 10] },
    { kind := .integer 1, parent := some 8 },
    { kind := .integer 2, parent := some 8 },
    { kind := .block, parent := some 7, children := [12] },
    { kind := .returnStmt, parent := some 11, children := [13] },
    { kind := .arithmetic .div, parent := some 12, children := [14, 15] },
    { kind := .integer 1, parent := some 13 },
    { kind := .integer 0, parent := some 13 }]
  root := 0

/-- The program of `divisionInBranch`, as a tree. -/
def divisionInBranchTree : Tree :=
  .node 0 .program [.node 1 (.method "f") [
    .node 2 (.varDecl "x" "int") [],
    .node 3 (.assignment "x") [.node 4 (.arithmetic .add) [
      .node 5 (.integer 1) [], .node 6 (.integer 2) []]],
    .node 7 .conditional [
      .node 8 (.comparison .less) [.node 9 (.integer 1) [], .node 10 (.integer 2) []],
      .node 11 .block [.node 12 .returnStmt [.node 13 (.arithmetic .div) [
        .node 14 (.integer 1) [], .node 15 (.integer 0) []]]]]]]

theorem carries_divisionInBranch : divisionInBranch.Carries divisionInBranchTree where
  consistent := Forest.consistent_of_ordered (by decide) (by decide +kernel) (by decide +kernel)
  reads := by decide +kernel
  root_eq := rfl

theorem wellShaped_divisionInBranch : divisionInBranchTree.WellShaped := by
  have hliteral : ∀ i v, IsExpr (.node i (.integer v) []) := fun i v => .node i rfl (by simp)
  refine .scope 0 rfl (List.forall_mem_singleton.2 (.method 1 rfl ?_))
  simp only [List.forall_mem_cons]
  refine ⟨.inl ⟨trivial, .node 2 rfl⟩, .inr (.simple 3 rfl ?_),
    .inr (.conditional 7 ?_ (.inl rfl) ?_), by simp⟩
  · exact List.forall_mem_singleton.2 (.node 4 rfl (by simp [hliteral]))
  · exact .node 8 rfl (by simp [hliteral])
  · refine List.forall_mem_singleton.2 (.block 11 (List.forall_mem_singleton.2 (.simple 12 rfl ?_)))
    exact List.forall_mem_singleton.2 (.node 13 rfl (by simp [hliteral]))

theorem foldProgram_preserves_outcomes_divisionInBranch :
    divisionInBranch.Carries divisionInBranchTree ∧ divisionInBranchTree.WellShaped ∧
      succeeds Edit.foldProgram divisionInBranch = false ∧
      after Edit.foldProgram divisionInBranch ≠ divisionInBranch ∧
      ∀ {ρ ω : Type} (R : Runtime ρ ω),
        (after Edit.foldProgram divisionInBranch).Outcomes R 1 = divisionInBranch.Outcomes R 1 :=
  ⟨carries_divisionInBranch, wellShaped_divisionInBranch, by decide +kernel, by decide +kernel,
    (foldProgram_preserves_outcomes carries_divisionInBranch wellShaped_divisionInBranch).2 1
      (by decide +kernel)⟩

end Midend
