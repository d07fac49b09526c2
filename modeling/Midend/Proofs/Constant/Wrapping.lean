import Mathlib.Data.Int.ModEq
import Midend.Proofs.Constant.Evaluation
import Midend.Proofs.Constant.Stability

/-!
# Wrapping at each step

Folding wraps the value of each operator to 32 bits. Sums, differences and products
do not notice: their value modulo 2^32 depends on that of their operands only. So it
is all the same whether an expression without divisions is wrapped at each operator or
once at the end, and folding leaves the one 32-bit integer that is congruent to the
value on unbounded integers.

* `RingOp.wrap_onIntegers`: operators may have their operands wrapped;
* `RingExpr.value?_closed`: so may whole expressions;
* `Folds.descend`: a statement that is left is what folding made of it;
* `folding_wraps_once`: what is left of an assignment.
-/

namespace Midend

/-! ## Wrapping -/

/-- The arithmetic operators that have a value on all integers. -/
inductive RingOp
  | add
  | sub
  | mul

namespace RingOp

/-- The operator, as one of all arithmetic operators. -/
def arith : RingOp → Arith
  | add => .add
  | sub => .sub
  | mul => .mul

/-- The value of the operator on integers. -/
def onIntegers : RingOp → Int → Int → Int
  | add, x, y => x + y
  | sub, x, y => x - y
  | mul, x, y => x * y

theorem onIntegers?_arith (op : RingOp) (x y : Int) :
    op.arith.onIntegers? x y = some (op.onIntegers x y) := by
  cases op <;> rfl

/-- It makes no difference to the wrapped value whether the operands are wrapped. -/
theorem wrap_onIntegers (op : RingOp) (x y : Int) :
    wrap (op.onIntegers (wrap x) (wrap y)) = wrap (op.onIntegers x y) := by
  cases op with
  | add => simp only [onIntegers, wrap, Int.bmod_add_bmod, Int.add_bmod_bmod]
  | sub => simp only [onIntegers, wrap, Int.bmod_sub_bmod, Int.sub_bmod_bmod]
  | mul => simp only [onIntegers, wrap, Int.bmod_mul_bmod, Int.mul_bmod_bmod]

end RingOp

/-- A 32-bit integer is congruent to an integer exactly if that wraps around to it. -/
theorem toInt_modEq_iff {w : Int32} {n : Int} :
    w.toInt ≡ n [ZMOD Int32.size] ↔ w = .ofInt n := by
  rw [← Int32.toInt_inj, Int32.toInt_ofInt]
  constructor
  · intro h
    rw [← Int32.toInt_bmod_size w, ← Int.emod_bmod, h, Int.emod_bmod]
  · intro h
    rw [h]
    exact Int.bmod_emod

/-! ## Expressions without divisions -/

/-- A closed expression of integers without divisions, with the numbers of its nodes. -/
inductive RingExpr
  | integer (i : NodeId) (v : Int32)
  | parentheses (i : NodeId) (e : RingExpr)
  | arithmetic (i : NodeId) (op : RingOp) (l r : RingExpr)

namespace RingExpr

/-- The expression, as one of all closed expressions. -/
def closed : RingExpr → ClosedExpr .int
  | integer i v => .integer i v
  | parentheses i e => .parentheses i e.closed
  | arithmetic i op l r => .arithmetic i op.arith l.closed r.closed

/-- The value of the expression on integers without bounds. -/
def value : RingExpr → Int
  | integer _ v => v.toInt
  | parentheses _ e => e.value
  | arithmetic _ op l r => op.onIntegers l.value r.value

theorem divisions_closed (e : RingExpr) : e.closed.divisions = [] := by
  induction e with
  | integer i v => rfl
  | parentheses i e ih => exact ih
  | arithmetic i op l r ihl ihr =>
    rw [closed, ClosedExpr.divisions, ihl, ihr]
    cases op <;> rfl

/-- Wrapping at each operator is wrapping once. -/
theorem value?_closed (e : RingExpr) : e.closed.value? = some (wrap e.value) := by
  induction e with
  | integer i v => exact congrArg some (Int32.toInt_bmod_size v).symm
  | parentheses i e ih => exact ih
  | arithmetic i op l r ihl ihr =>
    have hvalue : (op.arith.onIntegers? (wrap l.value) (wrap r.value)).map wrap =
        some (wrap (op.onIntegers l.value r.value)) := by
      rw [op.onIntegers?_arith, Option.map_some, op.wrap_onIntegers]
    rw [closed, ClosedExpr.value?, ihl, ihr]
    exact hvalue

variable {m y : String} {a : Bool} {j : NodeId} {us : List Tree} {x : Except Error Bool}

/-- Folding does not stop at an assignment of the expression, and leaves the integer that
    its value wraps around to. -/
theorem folds_assignment {e : RingExpr}
    (h : Folds m a [.node j (.assignment y) [e.closed.tree]] us x) :
    ∃ i b, us = [.node j (.assignment y) [.node i (.integer (.ofInt e.value)) []]] ∧
      x = .ok b := by
  obtain ⟨u, rfl, ⟨b, ⟨-, v, u', hv, hu, hus⟩, rfl⟩ | ⟨d, _, hd, _⟩⟩ :=
    ClosedExpr.folds_assignment h
  · cases hus
    cases hv.symm.trans e.value?_closed
    obtain ⟨w, i, hw, rfl⟩ := hu.integer
    obtain rfl : w = .ofInt e.value := Int32.toInt_inj.1 (hw.trans Int32.toInt_ofInt.symm)
    exact ⟨i, b, rfl, rfl⟩
  · rw [e.divisions_closed] at hd
    cases hd

end RingExpr

/-! ## What is left -/

/-- The loops in the trees have no more than a test and a body. Folding does not look at
    anything else that may be below a loop. -/
def LoopsEnd (ts : List Tree) : Prop :=
  ∀ u ∈ ts.flatMap Tree.subtrees, u.kind = .loop → u.children.length ≤ 2

/-- All that is left, literals and blocks apart, is what folding made of a tree with the
    same number, or, unless folding was `complete`, is that tree. -/
def Descend (complete : Prop) (us ts : List Tree) : Prop :=
  ∀ u ∈ us.flatMap Tree.subtrees, u.literal? = none → u.kind ≠ .block →
    ∃ s ∈ ts.flatMap Tree.subtrees, s.root = u.root ∧
      (¬ complete ∧ u = s ∨ ∃ m a x, Folds m a [s] [u] x)

section Parts

variable {complete : Prop} {us us' ts ts' : List Tree} {i : NodeId} {k : Kind}

theorem LoopsEnd.mono (h : LoopsEnd ts')
    (hsub : ts.flatMap Tree.subtrees ⊆ ts'.flatMap Tree.subtrees) : LoopsEnd ts :=
  fun u hu => h u (hsub hu)

theorem LoopsEnd.below (h : LoopsEnd [.node i k ts]) : LoopsEnd ts :=
  h.mono (by simp)

theorem LoopsEnd.of_cons {t : Tree} (h : LoopsEnd (t :: ts)) : LoopsEnd [t] ∧ LoopsEnd ts :=
  ⟨h.mono (by simp), h.mono (by simp)⟩

namespace Descend

/-- What folding does not get to is left as it was. -/
theorem untouched (h : ¬ complete) (ts : List Tree) : Descend complete ts ts :=
  fun u hu _ _ => ⟨u, hu, rfl, .inl ⟨h, rfl⟩⟩

theorem nil (ts : List Tree) : Descend complete [] ts :=
  fun _ hu => absurd hu List.not_mem_nil

theorem mono (h : Descend complete us ts)
    (hsub : ts.flatMap Tree.subtrees ⊆ ts'.flatMap Tree.subtrees) : Descend complete us ts' := by
  intro u hu hlit hblock
  obtain ⟨s, hs, horigin⟩ := h u hu hlit hblock
  exact ⟨s, hsub hs, horigin⟩

/-- Trees next to each other descend each from its own. -/
theorem append (h : Descend complete us ts) (h' : Descend complete us' ts') :
    Descend complete (us ++ us') (ts ++ ts') := by
  intro u hu
  rw [List.flatMap_append, List.mem_append] at hu
  rcases hu with hu | hu
  · exact h.mono (by simp) u hu
  · exact h'.mono (by simp) u hu

theorem vacant (a : Bool) (i : NodeId) (ts : List Tree) : Descend complete (vacant a i) ts := by
  intro u hu _ hblock
  cases a with
  | true => exact absurd hu List.not_mem_nil
  | false =>
    obtain rfl : u = .node i .block [] := by simpa [Midend.vacant] using hu
    exact absurd rfl hblock

/-- A node that is kept is what became of it, and so is what is below it. -/
theorem node {m : String} {a : Bool} {x : Except Error Bool} (h : Descend complete us ts)
    (hnode : Folds m a [.node i k ts] [.node i k us] x) :
    Descend complete [.node i k us] [.node i k ts] := by
  intro u hu hlit hblock
  simp only [List.flatMap_singleton, Tree.subtrees_node, List.mem_cons] at hu ⊢
  rcases hu with rfl | hu
  · exact ⟨_, .inl rfl, rfl, .inr ⟨m, a, x, hnode⟩⟩
  · obtain ⟨s, hs, horigin⟩ := h u hu hlit hblock
    exact ⟨s, .inr hs, horigin⟩

/-- What is left of a branch is in the branch. -/
theorem asBranch {v : Tree} (h : Descend complete [v] ts) (a : Bool) :
    Descend complete (v.asBranch a) ts := by
  intro u hu
  refine h u ?_
  unfold Tree.asBranch at hu
  split at hu
  · cases v
    rw [List.flatMap_singleton, Tree.subtrees_node]
    exact List.mem_cons_of_mem _ hu
  · exact hu

end Descend

end Parts

/-- What is left is what folding made of it, if folding got to it. That it did not is
    excluded where folding succeeds and no loop has more than a body. -/
theorem Folds.descend {complete : Prop} {m : String} {a : Bool} {ts us : List Tree}
    {x : Except Error Bool} (h : Folds m a ts us x)
    (hcomplete : complete → x.isOk ∧ LoopsEnd ts) : Descend complete us ts := by
  have hstopped {e : Error} {ts : List Tree}
      (h : complete → (Except.error e : Except Error Bool).isOk ∧ LoopsEnd ts) : ¬ complete :=
    fun hc => Bool.false_ne_true (h hc).1
  induction h with
  | nil => exact .nil _
  | @cons m a b t ts us vs r _ _ _ iht ihts =>
    have hparts (h : complete) := (hcomplete h).2.of_cons
    refine (iht fun h => ⟨rfl, (hparts h).1⟩).append (ihts fun h => ⟨?_, (hparts h).2⟩)
    cases r <;> exact (hcomplete h).1
  | stop _ _ ih =>
    have hnot := hstopped hcomplete
    exact (ih (absurd · hnot)).append (.untouched hnot _)
  | @inside m a i k cs ds e hk hds ih =>
    exact (ih (absurd · (hstopped hcomplete))).node (a := a) (.inside hk hds)
  | @keep m a b i k cs ds hk hds hv ih =>
    exact (ih fun h => ⟨rfl, (hcomplete h).2.below⟩).node (a := a) (.keep hk hds hv)
  | compute j =>
    intro u hu hlit
    obtain rfl : u = _ := by simpa using hu
    simp [Tree.literal?] at hlit
  | @divide m a b i k cs ds e hk hds hv ih =>
    exact (ih (absurd · (hstopped hcomplete))).node (a := a) (.divide hk hds hv)
  | noTest m a i hk => exact (Descend.nil []).node (.noTest m a i hk)
  | @test m a i k t us cs e hk ht ih =>
    have hnot := hstopped hcomplete
    exact ((ih (absurd · hnot)).append (.untouched hnot cs)).node (a := a) (.test hk ht)
  | @integerTest m a b i k t u cs v hk ht hl ih =>
    have hnot := hstopped hcomplete
    exact ((ih (absurd · hnot)).append (.untouched hnot cs)).node (a := a) (.integerTest hk ht hl)
  | settledVacant j | skip j => exact .vacant _ j _
  | @settledInside m a b c i t u s l r vs e ht hl hlen hs iht ihs =>
    have hnot := hstopped hcomplete
    have hbranches : Descend complete (l ++ vs ++ r) (l ++ s :: r) := by
      simpa using ((Descend.untouched hnot l).append (ihs (absurd · hnot))).append
        (.untouched hnot r)
    exact ((iht (absurd · hnot)).append hbranches).node (a := a) (.settledInside ht hl hlen hs)
  | @settled m a b b' c i t u s v l r _ _ _ _ _ ihs =>
    have hbranch : [s].flatMap Tree.subtrees ⊆
        [Tree.node i .conditional (t :: (l ++ s :: r))].flatMap Tree.subtrees := by
      intro u hu
      simp_all
    exact ((ihs fun h => ⟨rfl, (hcomplete h).2.mono hbranch⟩).mono hbranch).asBranch a
  | @unsettled m a b i t u cs ds r ht hl hcs iht ihcs =>
    have hparts (h : complete) := (hcomplete h).2.below.of_cons
    have htest := iht fun h => ⟨rfl, (hparts h).1⟩
    have hrest := ihcs fun h => ⟨by cases r <;> exact (hcomplete h).1, (hparts h).2⟩
    exact (htest.append hrest).node (a := a) (.unsettled ht hl hcs)
  | @noBody m a b i t u ht hl ih =>
    exact (ih (absurd · (hstopped hcomplete))).node (a := a) (.noBody ht hl)
  | @loop m a b i t u s cs vs r ht hl hs iht ihs =>
    have hparts (h : complete) := (hcomplete h).2.below.of_cons
    have htest := iht fun h => ⟨rfl, (hparts h).1⟩
    have hbody := ihs fun h => ⟨by cases r <;> exact (hcomplete h).1, (hparts h).2.of_cons.1⟩
    -- What comes after the body is left as it was, but there is nothing if all is complete.
    have hafter : Descend complete cs cs := by
      by_cases h : complete
      · obtain rfl : cs = [] := by
          simpa using (hcomplete h).2 (.node i .loop (t :: s :: cs)) (by simp) rfl
        exact .nil _
      · exact .untouched h cs
    exact (htest.append (hbody.append hafter)).node (a := a) (.loop ht hl hs)

/-! ## Assignments of such expressions -/

/-- Folding the program wraps the value of an expression without divisions that is assigned,
    however often it wraps on the way: there is one 32-bit integer that is congruent to the
    value on unbounded integers, and it is left on the right-hand side. If folding gets to
    the assignment, the assignment is left and folding succeeds, unless a later statement
    stops it. Whenever folding succeeds, the assignment has that right-hand side if it is left
    at all; and however folding ends, it has that one or the one that it had. -/
theorem folding_wraps_once {f : Forest} {t : Tree} {j : NodeId} {y : String} {e : RingExpr}
    (hf : f.Rooted) (ht : f.Carries t)
    (hmem : .node j (.assignment y) [e.closed.tree] ∈ t.subtrees) :
    ∃ w : Int32, (∀ w' : Int32, w'.toInt ≡ e.value [ZMOD Int32.size] ↔ w' = w) ∧
      (∀ m safe, Reaches (.node j (.assignment y) [e.closed.tree]) m safe Edit.outsideMethods t →
        ∃ f' t' i, ((∃ changed, Edit.foldProgram f = .ok changed f') ∨
            safe = false ∧ ∃ e', Edit.foldProgram f = .error e' f') ∧
          f'.Carries t' ∧ .node j (.assignment y) [.node i (.integer w) []] ∈ t'.subtrees) ∧
      (LoopsEnd [t] → ∀ changed f', Edit.foldProgram f = .ok changed f' →
        ∃ t', f'.Carries t' ∧ ∀ z us, .node j (.assignment z) us ∈ t'.subtrees →
          z = y ∧ ∃ i, us = [.node i (.integer w) []]) ∧
      ∃ t', (after Edit.foldProgram f).Carries t' ∧
        ∀ z us, .node j (.assignment z) us ∈ t'.subtrees →
          z = y ∧ (us = [e.closed.tree] ∨ ∃ i, us = [.node i (.integer w) []]) := by
  have hfolds := Edit.ensures_foldProgram_folds hf ht
  -- There is one tree with the number of the assignment.
  have hleft {complete : Prop} {t' : Tree} (hdescend : Descend complete [t'] [t]) :
      ∀ z us, .node j (.assignment z) us ∈ t'.subtrees → z = y ∧
        (¬ complete ∧ us = [e.closed.tree] ∨
          ∃ i, us = [.node i (.integer (.ofInt e.value)) []]) := by
    intro z us hmem'
    obtain ⟨s, hs, hroot, horigin⟩ :=
      hdescend (.node j (.assignment z) us) (by simpa using hmem') rfl nofun
    rw [List.flatMap_singleton] at hs
    obtain rfl := (ht.reads.of_mem_subtrees hs).eq_of_root_eq (ht.reads.of_mem_subtrees hmem) hroot
    rcases horigin with ⟨hnot, heq⟩ | ⟨m, a, x, hsu⟩
    · cases heq
      exact ⟨rfl, .inl ⟨hnot, rfl⟩⟩
    · obtain ⟨i, b, heq, -⟩ := RingExpr.folds_assignment hsu
      cases heq
      exact ⟨rfl, .inr ⟨i, rfl⟩⟩
  refine ⟨.ofInt e.value, fun w' => toInt_modEq_iff, ?_, ?_, ?_⟩
  · intro m safe hplace
    cases hr : Edit.foldProgram f with
    | ok changed f' =>
      obtain ⟨t', hfold, h'⟩ := hfolds.of_eq_ok hr
      obtain ⟨a, vs, x, hs, -, hkeep⟩ := hplace.folds hfold
      obtain ⟨i, b, rfl, -⟩ := RingExpr.folds_assignment hs
      exact ⟨f', t', i, .inl ⟨changed, rfl⟩, h'.carries, hkeep.mem_subtrees nofun⟩
    | error e' f' =>
      obtain ⟨t', hfold, h'⟩ := hfolds.of_eq_error hr
      obtain ⟨a, vs, x, hs, hends, hkeep⟩ := hplace.folds hfold
      obtain ⟨i, b, rfl, rfl⟩ := RingExpr.folds_assignment hs
      -- Folding did not stop at the assignment.
      obtain hends | ⟨hsafe, -⟩ := hends
      · cases hends
      · exact ⟨f', t', i, .inr ⟨hsafe, e', rfl⟩, h'.carries, hkeep.mem_subtrees nofun⟩
  · intro hends changed f' hr
    obtain ⟨t', hfold, h'⟩ := hfolds.of_eq_ok hr
    refine ⟨t', h'.carries, fun z us hmem' => ?_⟩
    have hdescend : Descend True [t'] [t] := hfold.descend fun _ => ⟨rfl, hends⟩
    simpa using hleft hdescend z us hmem'
  · obtain ⟨r, t', hfold, h'⟩ := hfolds.after
    refine ⟨t', h'.carries, fun z us hmem' => ?_⟩
    have hdescend : Descend False [t'] [t] := hfold.descend False.elim
    simpa using hleft hdescend z us hmem'

/-- A product and a sum that are both out of bounds, one less the other. -/
def overflows : RingExpr :=
  .arithmetic 5 .sub (.arithmetic 6 .mul (.integer 7 2147483647) (.integer 8 2147483647))
    (.parentheses 9 (.arithmetic 10 .add (.integer 11 (-2147483648)) (.integer 12 (-1))))

/-- A method that assigns `overflows` over and over, and stops after that, or not. -/
def overflowsForest (stops : Bool) : Forest where
  nodes := #[
    { kind := .program, children := [1] },
    { kind := .method "f", parent := some 0, children := 2 :: if stops then [13] else [] },
    { kind := .loop, parent := some 1, children := [3, 4] },
    { kind := .boolean true, parent := some 2 },
    { kind := .assignment "x", parent := some 2, children := [5] },
    { kind := .arithmetic .sub, parent := some 4, children := [6, 9] },
    { kind := .arithmetic .mul, parent := some 5, children := [7, 8] },
    { kind := .integer 2147483647, parent := some 6 },
    { kind := .integer 2147483647, parent := some 6 },
    { kind := .parentheses, parent := some 5, children := [10] },
    { kind := .arithmetic .add, parent := some 9, children := [11, 12] },
    { kind := .integer (-2147483648), parent := some 10 },
    { kind := .integer (-1), parent := some 10 }] ++
    if stops then #[
      { kind := .loop, parent := some 1, children := [14, 15] },
      { kind := .integer 1, parent := some 13 },
      { kind := .block, parent := some 13 }]
    else #[]
  root := 0

/-- The program of `overflowsForest`, as a tree. -/
def overflowsTree (stops : Bool) : Tree :=
  .node 0 .program [.node 1 (.method "f") (.node 2 .loop [(ClosedExpr.boolean 3 true).tree,
    .node 4 (.assignment "x") [overflows.closed.tree]] ::
      if stops then [.node 13 .loop [.node 14 (.integer 1) [], .node 15 .block []]] else [])]

theorem carries_overflows (stops : Bool) :
    (overflowsForest stops).Carries (overflowsTree stops) where
  consistent := by
    cases stops <;>
      exact Forest.consistent_of_ordered (by decide) (by decide +kernel) (by decide +kernel)
  reads := by cases stops <;> decide +kernel
  root_eq := rfl

theorem reaches_overflows (stops : Bool) :
    Reaches (.node 4 (.assignment "x") [overflows.closed.tree]) "f" (!stops) Edit.outsideMethods
      (overflowsTree stops) := by
  have hnone (m : String) : Harmless m [] := harmless_of_inert (by simp)
  refine .inside (l := []) (by decide) (by decide) (hnone _) (fun _ => hnone _) ?_
  refine .inside (l := []) (by decide) (by decide) (hnone _) (fun hsafe => ?_) ?_
  · obtain rfl : stops = false := by simpa using hsafe
    exact hnone _
  · exact .body (v := some true) (ClosedExpr.tests rfl rfl) nofun .here

theorem folding_wraps_once_overflows :
    overflows.value = 4611686016279904258 ∧
    (∃ changed f' t' i, Edit.foldProgram (overflowsForest false) = .ok changed f' ∧
      f'.Carries t' ∧
      .node 4 (.assignment "x") [.node i (.integer (-2147483646)) []] ∈ t'.subtrees) ∧
    (∀ changed f', Edit.foldProgram (overflowsForest false) = .ok changed f' → ∃ t',
      f'.Carries t' ∧ ∀ z us, .node 4 (.assignment z) us ∈ t'.subtrees →
        z = "x" ∧ ∃ i, us = [.node i (.integer (-2147483646)) []]) ∧
    ∃ f' t' i, Edit.foldProgram (overflowsForest true) =
        .error (.malformed (.integerCondition Kind.loop.label 13 1)) f' ∧ f'.Carries t' ∧
      .node 4 (.assignment "x") [.node i (.integer (-2147483646)) []] ∈ t'.subtrees := by
  have hwraps (stops : Bool) := folding_wraps_once (e := overflows) (j := 4) (y := "x")
    ⟨(carries_overflows stops).consistent, by cases stops <;> rfl⟩ (carries_overflows stops)
    (by simp [overflowsTree])
  have hends : LoopsEnd [overflowsTree false] := by
    unfold LoopsEnd
    decide +kernel
  refine ⟨by decide +kernel, ?_, ?_, ?_⟩
  · obtain ⟨w, hw, hreached, -⟩ := hwraps false
    obtain rfl : -2147483646 = w := (hw _).1 (by decide +kernel)
    obtain ⟨f', t', i, ⟨changed, hfold⟩ | ⟨hsafe, -⟩, hf', hmem⟩ :=
      hreached "f" true (reaches_overflows false)
    · exact ⟨changed, f', t', i, hfold, hf', hmem⟩
    · cases hsafe
  · obtain ⟨w, hw, -, hleft, -⟩ := hwraps false
    obtain rfl : -2147483646 = w := (hw _).1 (by decide +kernel)
    exact hleft hends
  · obtain ⟨w, hw, hreached, -⟩ := hwraps true
    obtain rfl : -2147483646 = w := (hw _).1 (by decide +kernel)
    have hrun : Edit.foldProgram (overflowsForest true) =
        .error (.malformed (.integerCondition Kind.loop.label 13 1))
          (after Edit.foldProgram (overflowsForest true)) := by rfl
    obtain ⟨f', t', i, ⟨changed, hfold⟩ | ⟨-, e', hfold⟩, hf', hmem⟩ :=
      hreached "f" false (reaches_overflows true)
    · cases hrun.symm.trans hfold
    · cases hrun.symm.trans hfold
      exact ⟨_, t', i, hrun, hf', hmem⟩

end Midend
