import Midend.Proofs.Constant.ClosedExpr

/-!
# Folding evaluates

Folding gets to a statement when nothing before it stops, the conditionals around
it are unsettled or take its branch, and the loops around it are entered. What it makes
of the statement is left in the program, also if it stops at a later one. When nothing
after the statement stops, folding the program ends as folding the statement does
(`Reaches.folds`). So it computes a closed expression that is assigned there, or stops at
its first division by zero.

* `Reaches.folds`: a statement that folding gets to decides how folding ends;
* `harmless_of_inert`, `ClosedExpr.tests`: trees that do not stop it;
* `folding_evaluates_closed_expressions`: what is left of an assignment.
-/

namespace Midend

/-! ## Where folding gets to -/

/-- Folding the trees does not stop. -/
def Harmless (m : String) (ts : List Tree) : Prop :=
  ∀ {a us r}, Folds m a ts us r → ∃ b, r = .ok b

/-- Folding a test does not stop, and leaves a truth value or no literal. -/
def Tests (m : String) (t : Tree) (v : Option Bool) : Prop :=
  ∀ {us r}, Folds m false [t] us r → ∃ u b, us = [u] ∧ r = .ok b ∧ u.literal? = v.map .bool

/-- Folding the tree, within the method `o`, gets to the statement `s`, within the
    method `m`, as nothing before it stops. If this is `safe`, nothing after it stops either. -/
inductive Reaches (s : Tree) (m : String) (safe : Bool) : String → Tree → Prop
  | here : Reaches s m safe m s
  -- What is below a method is within that method, and else in the one around it.
  | inside {o : String} {i : NodeId} {k : Kind} {l r : List Tree} {t : Tree} :
    ¬ k.isControl → k.role ≠ .expression → Harmless (k.methodName?.getD o) l →
    (safe → Harmless (k.methodName?.getD o) r) → Reaches s m safe (k.methodName?.getD o) t →
    Reaches s m safe o (.node i k (l ++ t :: r))
  | branch {o : String} {i : NodeId} {c t : Tree} {l r : List Tree} :
    Tests o c none → Harmless o l → (safe → Harmless o r) → Reaches s m safe o t →
    Reaches s m safe o (.node i .conditional (c :: (l ++ t :: r)))
  -- Of a settled conditional only the branch that is taken is visited, so the other
  -- one need not be harmless.
  | taken {o : String} {i : NodeId} {b : Bool} {c t : Tree} {l r : List Tree} :
    Tests o c (some b) → (c :: l).length = branchIndex b → Reaches s m safe o t →
    Reaches s m safe o (.node i .conditional (c :: (l ++ t :: r)))
  | body {o : String} {i : NodeId} {v : Option Bool} {c t : Tree} {r : List Tree} :
    Tests o c v → v ≠ some false → Reaches s m safe o t →
    Reaches s m safe o (.node i .loop (c :: t :: r))

/-- Two results are the same error, or none of them is an error. -/
def EndsAs (r r' : Except Error Bool) : Prop := r.map (fun _ => ()) = r'.map (fun _ => ())

theorem endsAs_map (r : Except Error Bool) (g : Bool → Bool) : EndsAs (r.map g) r := by
  rcases r with _ | _ <;> rfl

/-- Folding ends as at the statement, or stops at an error after it, unless that is safe. -/
def EndsAfter (safe : Bool) (r r' : Except Error Bool) : Prop :=
  EndsAs r r' ∨ safe = false ∧ ∃ b e, r' = .ok b ∧ r = .error e

theorem EndsAfter.trans {safe : Bool} {r r' r'' : Except Error Bool} (h : EndsAfter safe r r')
    (h' : EndsAfter safe r' r'') : EndsAfter safe r r'' := by
  rcases h with h | ⟨hsafe, b, e, rfl, rfl⟩
  · rcases h' with h' | ⟨hsafe, b, e, rfl, rfl⟩
    · exact .inl (h.trans h')
    · rcases r with e' | _
      · exact .inr ⟨hsafe, b, e', rfl, rfl⟩
      · cases h
  · rcases h' with h' | ⟨-, _, _, -, he⟩
    · rcases r'' with _ | b'
      · cases h'
      · exact .inr ⟨hsafe, b', e, rfl, rfl⟩
    · cases he

/-- What is in the trees `vs` is in the trees `us` as well, apart from blocks. -/
def Retains (us vs : List Tree) : Prop :=
  ∀ w ∈ vs.flatMap Tree.subtrees, w.kind ≠ .block → w ∈ us.flatMap Tree.subtrees

theorem retains_node (i : NodeId) (k : Kind) (l vs r : List Tree) :
    Retains [.node i k (l ++ (vs ++ r))] vs := by
  intro w hw _
  rw [List.flatMap_singleton, Tree.subtrees_node, List.flatMap_append, List.flatMap_append]
  exact List.mem_cons_of_mem _ (List.mem_append_right _ (List.mem_append_left _ hw))

theorem Retains.trans {us vs ws : List Tree} (h : Retains us vs) (h' : Retains vs ws) :
    Retains us ws :=
  fun w hw hk => h w (h' w hw hk) hk

theorem Retains.mem_subtrees {t w : Tree} (h : Retains [t] [w]) (hw : w.kind ≠ .block) :
    w ∈ t.subtrees := by
  have hmem := h w (by simpa using w.self_mem_subtrees) hw
  rwa [List.flatMap_singleton] at hmem

/-- A branch is left with all that is in it, the block itself apart. -/
theorem retains_asBranch (v : Tree) (a : Bool) : Retains (v.asBranch a) [v] := by
  intro w hw hk
  unfold Tree.asBranch
  split
  next hv =>
    obtain ⟨i, k, cs⟩ := v
    rw [List.flatMap_singleton, Tree.subtrees_node, List.mem_cons] at hw
    rcases hw with rfl | hw
    · exact absurd hv.2 hk
    · exact hw
  next => exact hw

variable {m : String} {a : Bool} {t : Tree} {us : List Tree} {x : Except Error Bool}

/-- A tree after harmless ones is folded as it is alone. -/
theorem Harmless.folds_between {l r : List Tree} {safe : Bool} (hl : Harmless m l)
    (hr : safe → Harmless m r) (h : Folds m a (l ++ t :: r) us x) :
    ∃ vs ws ws' x', Folds m a [t] ws x' ∧ us = vs ++ (ws ++ ws') ∧ EndsAfter safe x x' := by
  rcases h.append_cases with ⟨vs, ws, b, x', rfl, -, h', rfl⟩ | ⟨vs, e, -, hvs, -⟩
  · rcases h'.cons_cases with ⟨ws, ws', c, x'', rfl, ht, hrest, rfl⟩ | ⟨ws, e, rfl, ht, rfl⟩
    · refine ⟨vs, ws, ws', .ok c, ht, rfl, ?_⟩
      rcases x'' with e | d
      · cases safe with
        | false => exact .inr ⟨rfl, c, e, rfl, rfl⟩
        | true =>
          obtain ⟨d, hd⟩ := hr rfl hrest
          cases hd
      · exact .inl rfl
    · exact ⟨vs, ws, r, .error e, ht, rfl, .inl rfl⟩
  · obtain ⟨b, hb⟩ := hl hvs
    cases hb

namespace Tests

variable {i : NodeId} {c : Tree} {v : Option Bool} {cs l r : List Tree}

theorem not_error (hc : Tests m c v) {e : Error} : ¬ Folds m false [c] us (.error e) := by
  intro h
  obtain ⟨_, _, _, hb, _⟩ := hc h
  cases hb

theorem literal?_eq (hc : Tests m c v) {u : Tree} {b : Bool} (h : Folds m false [c] [u] (.ok b)) :
    u.literal? = v.map .bool := by
  obtain ⟨_, _, hu, _, hl⟩ := hc h
  cases hu
  exact hl

/-- All branches of an unsettled conditional are folded. -/
theorem folds_branches (hc : Tests m c none)
    (h : Folds m a [.node i .conditional (c :: cs)] us x) :
    ∃ u ds x', Folds m false cs ds x' ∧ us = [.node i .conditional (u :: ds)] ∧ EndsAs x x' := by
  rcases h.conditional_cases with ⟨vs, e, ht, -⟩ | ⟨u, b, ht, hu⟩
  · exact absurd ht hc.not_error
  · rw [hc.literal?_eq ht] at hu
    obtain ⟨ds, x', hds, rfl, rfl⟩ := hu
    exact ⟨u, ds, x', hds, rfl, endsAs_map x' _⟩

/-- The branch that is taken is folded. -/
theorem folds_taken {b : Bool} (hc : Tests m c (some b)) (hlen : (c :: l).length = branchIndex b)
    (h : Folds m a [.node i .conditional (c :: (l ++ t :: r))] us x) :
    ∃ vs x', Folds m false [t] vs x' ∧ EndsAs x x' ∧ Retains us vs := by
  rcases h.conditional_cases with ⟨vs, e, ht, -⟩ | ⟨u, b', ht, hu⟩
  · exact absurd ht hc.not_error
  rw [hc.literal?_eq ht] at hu
  rcases hu with ⟨hnone, -⟩ | ⟨l', s, r', vs, x', hcs, hlen', hs, hx⟩
  · rw [← hlen] at hnone
    simp at hnone
  · obtain ⟨rfl, hs'⟩ := List.append_inj hcs (by simpa using hlen.trans hlen'.symm)
    cases hs'
    refine ⟨vs, x', hs, ?_⟩
    rcases x' with e | b''
    · obtain ⟨rfl, rfl⟩ := hx
      rw [List.append_assoc]
      exact ⟨rfl, retains_node i .conditional (u :: l) vs r⟩
    · obtain ⟨rfl, rfl⟩ := hx
      obtain ⟨v, rfl⟩ := hs.exists_eq
      rw [List.flatMap_singleton]
      exact ⟨rfl, retains_asBranch v a⟩

/-- The body of a loop is folded, unless it is never entered. -/
theorem folds_body (hc : Tests m c v) (hv : v ≠ some false)
    (h : Folds m a [.node i .loop (c :: t :: r)] us x) :
    ∃ u vs x', Folds m false [t] vs x' ∧ us = [.node i .loop (u :: (vs ++ r))] ∧ EndsAs x x' := by
  rcases h.loop_cases with ⟨vs, e, ht, -⟩ | ⟨u, b, ht, hu⟩
  · exact absurd ht hc.not_error
  rw [hc.literal?_eq ht] at hu
  rcases v with _ | _ | _
  · obtain ⟨vs, x', hvs, rfl, rfl⟩ := hu
    exact ⟨u, vs, x', hvs, rfl, endsAs_map x' _⟩
  · exact absurd rfl hv
  · obtain ⟨vs, x', hvs, rfl, rfl⟩ := hu
    exact ⟨u, vs, x', hvs, rfl, endsAs_map x' _⟩

end Tests

/-- Folding gets to the statement: it is folded, what is left of it is in what is
    left of the tree, and both end the same way, unless folding stops after it. -/
theorem Reaches.folds {s t : Tree} {safe : Bool} {o : String} (h : Reaches s m safe o t)
    (hf : Folds o a [t] us x) :
    ∃ a' vs x', Folds m a' [s] vs x' ∧ EndsAfter safe x x' ∧ Retains us vs := by
  induction h generalizing a us x with
  | here => exact ⟨a, us, x, hf, .inl rfl, fun _ hw _ => hw⟩
  | @inside o i k l r t hk hrole hl hr _ ih =>
    obtain ⟨ds, x', hds, hx⟩ := hf.node_cases hk
    rw [Kind.folded_eq_none (fun n hn => hrole (Kind.role_of_takesOperands hn))] at hx
    obtain ⟨rfl, rfl⟩ : us = [.node i k ds] ∧ x = x' := by
      rcases x' with e | b <;> exact hx
    obtain ⟨vs, ws, ws', y, hws, rfl, hy⟩ := hl.folds_between hr hds
    obtain ⟨a', zs, z, hzs, hz, hkeep⟩ := ih hws
    exact ⟨a', zs, z, hzs, hy.trans hz, (retains_node i k vs ws ws').trans hkeep⟩
  | @branch o i c t l r hc hl hr _ ih =>
    obtain ⟨u, ds, x', hds, rfl, hx⟩ := hc.folds_branches hf
    obtain ⟨vs, ws, ws', y, hws, rfl, hy⟩ := hl.folds_between hr hds
    obtain ⟨a', zs, z, hzs, hz, hkeep⟩ := ih hws
    exact ⟨a', zs, z, hzs, .trans (.inl hx) (hy.trans hz),
      (retains_node i .conditional (u :: vs) ws ws').trans hkeep⟩
  | taken hc hlen _ ih =>
    obtain ⟨vs, y, hvs, hy, hkeep'⟩ := hc.folds_taken hlen hf
    obtain ⟨a', zs, z, hzs, hz, hkeep⟩ := ih hvs
    exact ⟨a', zs, z, hzs, .trans (.inl hy) hz, hkeep'.trans hkeep⟩
  | @body o i v c t r hc hv _ ih =>
    obtain ⟨u, vs, y, hvs, rfl, hy⟩ := hc.folds_body hv hf
    obtain ⟨a', zs, z, hzs, hz, hkeep⟩ := ih hvs
    exact ⟨a', zs, z, hzs, .trans (.inl hy) hz, (retains_node i .loop [u] vs r).trans hkeep⟩

/-! ## What does not stop -/

/-- Only a division stops. -/
theorem Kind.eq_div_of_folded_eq_error {k : Kind} {y z : Option Literal} {e : Error}
    (h : k.folded m y z = .error e) : k = .arithmetic .div := by
  unfold folded at h
  split at h
  case h_3 =>
    split at h
    next => cases h
    next hv => rw [(Arith.eval?_eq_none_iff.1 hv).1]
  all_goals cases h

/-- Nodes of this kind do not stop folding, whatever is below them. -/
def Kind.Inert (k : Kind) : Prop := ¬ k.isControl ∧ k ≠ .arithmetic .div

/-- Trees with no conditional, no loop and no division are harmless. -/
theorem harmless_of_inert {ts : List Tree} (hts : ∀ u ∈ ts.flatMap Tree.subtrees, u.kind.Inert) :
    Harmless m ts := by
  intro a us x h
  have hnode {i : NodeId} {k : Kind} {cs : List Tree}
      (h : ∀ u ∈ [Tree.node i k cs].flatMap Tree.subtrees, u.kind.Inert) :
      k.Inert ∧ ∀ u ∈ cs.flatMap Tree.subtrees, u.kind.Inert := by
    rw [List.flatMap_singleton, Tree.subtrees_node] at h
    exact List.forall_mem_cons.1 h
  induction h with
  | nil => exact ⟨_, rfl⟩
  | cons _ _ _ _ ih =>
    obtain ⟨b, rfl⟩ := ih fun u hu => hts u (List.mem_append_right _ hu)
    exact ⟨_, rfl⟩
  | stop _ _ ih =>
    rw [List.flatMap_cons] at hts
    refine ih fun u hu => hts u (List.mem_append_left _ ?_)
    rwa [List.flatMap_singleton] at hu
  | inside _ _ ih => exact ih (hnode hts).2
  | keep | compute => exact ⟨_, rfl⟩
  | divide _ _ hv => exact absurd (Kind.eq_div_of_folded_eq_error hv) (hnode hts).1.2
  | noTest _ _ _ hk | test hk | integerTest hk => exact absurd hk (hnode hts).1.1
  | _ => exact absurd rfl (hnode hts).1.1

namespace ClosedExpr

variable {τ : Scalar}

/-- A closed test that divides nothing by zero is settled. -/
theorem tests {e : ClosedExpr .bool} {b : Bool} (hd : e.divisions.find? Division.byZero = none)
    (hb : e.value? = some b) : Tests m e.tree (some b) := by
  intro us x h
  rcases e.evaluates m h with ⟨c, ⟨-, v, u, hv, hu, rfl⟩, rfl⟩ | ⟨d, _, hd', _⟩
  · cases hb.symm.trans hv
    obtain ⟨j, rfl⟩ := hu.boolean
    exact ⟨_, c, rfl, rfl, rfl⟩
  · cases hd.symm.trans hd'

/-! ## Assignments -/

/-- What folding makes of an assignment of the expression. -/
theorem folds_assignment {e : ClosedExpr τ} {j : NodeId} {y : String}
    (h : Folds m a [.node j (.assignment y) [e.tree]] us x) :
    ∃ u, us = [.node j (.assignment y) [u]] ∧
      ((∃ b, e.Computed [u] ∧ x = .ok b) ∨ StopsAt m e.divisions [u] x) := by
  obtain ⟨ds, x', hds, hx⟩ := Folds.node_cases (k := .assignment y) nofun h
  obtain ⟨u, rfl⟩ := hds.exists_eq
  obtain ⟨rfl, rfl⟩ : us = [.node j (.assignment y) [u]] ∧ x = x' := by
    rcases x' with _ | _ <;> exact hx
  exact ⟨u, rfl, e.evaluates m hds⟩

end ClosedExpr

/-- Folding the program folds a statement that it gets to. -/
theorem Reaches.ensures_foldProgram {f : Forest} {s : Tree} {safe : Bool}
    (h : Reaches s m safe Edit.outsideMethods t) (hs : s.kind.role ≠ .expression)
    (hf : f.Carries t) (hroot : ¬ t.kind.isControl) :
    Ensures Edit.foldProgram f fun r f' => ∃ t' a vs x, f'.Carries t' ∧ Folds m a [s] vs x ∧
      EndsAfter safe r x ∧ Retains [t'] vs := by
  have hrole : t.kind.role ≠ .expression := by
    cases h with
    | here => exact hs
    | inside _ hrole => exact hrole
    | _ => exact absurd rfl hroot
  obtain ⟨i, k, cs⟩ := t
  have hv (m : String) := k.folded_eq_none (fun n hn => hrole (Kind.role_of_takesOperands hn)) m
  refine (Edit.ensures_foldProgram hf hroot hv).mono ?_
  rintro r f' ⟨ds, hds, hf'⟩
  have hfolds : Folds Edit.outsideMethods false [.node i k cs] [.node i k ds] r := by
    rcases r with e | b
    · exact .inside hroot hds
    · exact .keep hroot hds (hv _ _ _)
  obtain ⟨a, vs, x, hx⟩ := h.folds hfolds
  exact ⟨_, a, vs, x, hf', hx⟩

/-- Folding the program evaluates a closed expression that is assigned where folding
    gets to. If nothing in it is divided by zero, the literal for its value is left
    on the right-hand side, and folding succeeds unless a later statement stops it.
    Otherwise folding stops at the first division by zero, names it and leaves it there. -/
theorem folding_evaluates_closed_expressions {f : Forest} {j : NodeId} {y : String} {τ : Scalar}
    {e : ClosedExpr τ} {safe : Bool} (hf : f.Carries t) (hroot : ¬ t.kind.isControl)
    (hplace : Reaches (.node j (.assignment y) [e.tree]) m safe Edit.outsideMethods t) :
    match e.divisions.find? Division.byZero with
    | none => ∃ v u f' t', e.value? = some v ∧ IsLiteralFor v u ∧
        ((∃ changed, Edit.foldProgram f = .ok changed f') ∨
          safe = false ∧ ∃ e', Edit.foldProgram f = .error e' f') ∧
        f'.Carries t' ∧ .node j (.assignment y) [u] ∈ t'.subtrees
    | some d => ∃ v u f' t', d.dividend.value? = some v.toInt ∧ d.Remains v [u] ∧
        Edit.foldProgram f =
          .error (.divisionByZero m (Decimal.text v.toInt ++ " / 0")) f' ∧
        f'.Carries t' ∧ .node j (.assignment y) [u] ∈ t'.subtrees := by
  have h := hplace.ensures_foldProgram nofun hf hroot
  cases hr : Edit.foldProgram f with
  | ok changed f' =>
    obtain ⟨t', a, _, x, hf', hs, hends, hkeep⟩ := h.of_eq_ok hr
    obtain ⟨u, rfl, ⟨b, ⟨hd, v, u', hv, hu', hu⟩, -⟩ | hstop⟩ := ClosedExpr.folds_assignment hs
    · cases hu
      rw [hd]
      exact ⟨v, u, f', t', hv, hu', .inl ⟨changed, rfl⟩, hf', hkeep.mem_subtrees nofun⟩
    · obtain ⟨e', rfl⟩ := hstop.exists_eq_error
      obtain hends | ⟨-, b, _, hb, -⟩ := hends
      · cases hends
      · cases hb
  | error e' f' =>
    obtain ⟨t', a, _, x, hf', hs, hends, hkeep⟩ := h.of_eq_error hr
    obtain ⟨u, rfl, ⟨b, ⟨hd, v, u', hv, hu', hu⟩, rfl⟩ | ⟨d, v, hd, hv, rfl, hu⟩⟩ :=
      ClosedExpr.folds_assignment hs
    · obtain hends | ⟨hsafe, -⟩ := hends
      · cases hends
      · cases hu
        rw [hd]
        exact ⟨v, u, f', t', hv, hu', .inr ⟨hsafe, e', rfl⟩, hf', hkeep.mem_subtrees nofun⟩
    · obtain hends | ⟨-, b, _, hb, -⟩ := hends
      · cases hends
        rw [hd]
        exact ⟨v, u, f', t', hv, hu, rfl, hf', hkeep.mem_subtrees nofun⟩
      · cases hb

/-- The least integer divided by -1, which is out of bounds, less 1. -/
def leastQuotient : ClosedExpr .int :=
  .arithmetic 3 .sub (.arithmetic 4 .div (.integer 5 (-2147483648)) (.integer 6 (-1)))
    (.integer 7 1)

/-- A method that assigns `leastQuotient`, and stops after that, or not. -/
def leastQuotientForest (stops : Bool) : Forest where
  nodes := #[
    { kind := .program, children := [1] },
    { kind := .method "f", parent := some 0, children := 2 :: if stops then [8] else [] },
    { kind := .assignment "x", parent := some 1, children := [3] },
    { kind := .arithmetic .sub, parent := some 2, children := [4, 7] },
    { kind := .arithmetic .div, parent := some 3, children := [5, 6] },
    { kind := .integer (-2147483648), parent := some 4 },
    { kind := .integer (-1), parent := some 4 },
    { kind := .integer 1, parent := some 3 }] ++
    if stops then #[
      { kind := .assignment "y", parent := some 1, children := [9] },
      { kind := .arithmetic .div, parent := some 8, children := [10, 11] },
      { kind := .integer 1, parent := some 9 },
      { kind := .integer 0, parent := some 9 }]
    else #[]
  root := 0

/-- The program of `leastQuotientForest`, as a tree. -/
def leastQuotientTree (stops : Bool) : Tree :=
  .node 0 .program [.node 1 (.method "f") (.node 2 (.assignment "x") [leastQuotient.tree] ::
    if stops then [.node 8 (.assignment "y") [
      (ClosedExpr.arithmetic 9 .div (.integer 10 1) (.integer 11 0)).tree]]
    else [])]

theorem carries_leastQuotient (stops : Bool) :
    (leastQuotientForest stops).Carries (leastQuotientTree stops) where
  consistent := by
    cases stops <;>
      exact Forest.consistent_of_ordered (by decide) (by decide +kernel) (by decide +kernel)
  reads := by cases stops <;> decide +kernel
  root_eq := rfl

theorem reaches_leastQuotient (stops : Bool) :
    Reaches (.node 2 (.assignment "x") [leastQuotient.tree]) "f" (!stops) Edit.outsideMethods
      (leastQuotientTree stops) := by
  have hnone (m : String) : Harmless m [] := harmless_of_inert (by simp)
  refine .inside (l := []) (by decide) (by decide) (hnone _) (fun _ => hnone _) ?_
  refine .inside (l := []) (by decide) (by decide) (hnone _) (fun hsafe => ?_) .here
  obtain rfl : stops = false := by simpa using hsafe
  exact hnone _

/-- The first division by zero of two, `7 / (1 - 1)`. -/
def firstZero : Division where
  node := 11
  dividend := .integer 12 7
  divisor := .arithmetic 13 .sub (.integer 14 1) (.integer 15 1)

/-- A conjunction that divides by zero on both sides. -/
def zeroDivisors : ClosedExpr .bool :=
  .logical 9 .and
    (.comparison 10 .less (.arithmetic 11 .div firstZero.dividend firstZero.divisor)
      (.integer 16 0))
    (.comparison 17 .less (.arithmetic 18 .div (.integer 19 5) (.integer 20 0)) (.integer 21 0))

/-- A method that assigns `zeroDivisors` in a branch that is taken. -/
def zeroDivisorsForest : Forest where
  nodes := #[
    { kind := .program, children := [1] },
    { kind := .method "g", parent := some 0, children := [2, 3] },
    { kind := .varDecl "flag" "boolean", parent := some 1 },
    { kind := .conditional, parent := some 1, children := [4, 7] },
    { kind := .comparison .less, parent := some 3, children := [5, 6] },
    { kind := .integer 1, parent := some 4 },
    { kind := .integer 2, parent := some 4 },
    { kind := .block, parent := some 3, children := [8] },
    { kind := .assignment "flag", parent := some 7, children := [9] },
    { kind := .logical .and, parent := some 8, children := [10, 17] },
    { kind := .comparison .less, parent := some 9, children := [11, 16] },
    { kind := .arithmetic .div, parent := some 10, children := [12, 13] },
    { kind := .integer 7, parent := some 11 },
    { kind := .arithmetic .sub, parent := some 11, children := [14, 15] },
    { kind := .integer 1, parent := some 13 },
    { kind := .integer 1, parent := some 13 },
    { kind := .integer 0, parent := some 10 },
    { kind := .comparison .less, parent := some 9, children := [18, 21] },
    { kind := .arithmetic .div, parent := some 17, children := [19, 20] },
    { kind := .integer 5, parent := some 18 },
    { kind := .integer 0, parent := some 18 },
    { kind := .integer 0, parent := some 17 }]
  root := 0

/-- The test around the assignment of `zeroDivisors`. -/
def oneBelowTwo : ClosedExpr .bool := .comparison 4 .less (.integer 5 1) (.integer 6 2)

/-- The program of `zeroDivisorsForest`, as a tree. -/
def zeroDivisorsTree : Tree :=
  .node 0 .program [.node 1 (.method "g") [.node 2 (.varDecl "flag" "boolean") [],
    .node 3 .conditional [oneBelowTwo.tree,
      .node 7 .block [.node 8 (.assignment "flag") [zeroDivisors.tree]]]]]

theorem carries_zeroDivisors : zeroDivisorsForest.Carries zeroDivisorsTree where
  consistent := Forest.consistent_of_ordered (by decide) (by decide +kernel) (by decide +kernel)
  reads := by decide +kernel
  root_eq := rfl

theorem reaches_zeroDivisors :
    Reaches (.node 8 (.assignment "flag") [zeroDivisors.tree]) "g" true Edit.outsideMethods
      zeroDivisorsTree := by
  have hnone (m : String) : Harmless m [] := harmless_of_inert (by simp)
  have hdecl : Harmless "g" [.node 2 (.varDecl "flag" "boolean") []] :=
    harmless_of_inert (by simp [Kind.Inert, Kind.isControl, Kind.role])
  refine .inside (l := []) (by decide) (by decide) (hnone _) (fun _ => hnone _) ?_
  refine .inside (l := [_]) (by decide) (by decide) hdecl (fun _ => hnone _) ?_
  refine .taken (b := true) (l := []) (ClosedExpr.tests rfl rfl) rfl ?_
  exact .inside (l := []) (by decide) (by decide) (hnone _) (fun _ => hnone _) .here

theorem folding_evaluates_closed_expressions_zeroDivisors :
    (∃ changed f' t' i, Edit.foldProgram (leastQuotientForest false) = .ok changed f' ∧
      f'.Carries t' ∧ .node 2 (.assignment "x") [.node i (.integer 2147483647) []] ∈ t'.subtrees) ∧
    (∃ f' t' i, Edit.foldProgram (leastQuotientForest true) =
        .error (.divisionByZero "f" "1 / 0") f' ∧
      f'.Carries t' ∧ .node 2 (.assignment "x") [.node i (.integer 2147483647) []] ∈ t'.subtrees) ∧
    ∃ f' t' u, Edit.foldProgram zeroDivisorsForest = .error (.divisionByZero "g" "7 / 0") f' ∧
      f'.Carries t' ∧ .node 8 (.assignment "flag") [u] ∈ t'.subtrees ∧ firstZero.Remains 7 [u] := by
  have hleast (stops : Bool) := folding_evaluates_closed_expressions (carries_leastQuotient stops)
    nofun (reaches_leastQuotient stops)
  have hzero := folding_evaluates_closed_expressions carries_zeroDivisors nofun
    reaches_zeroDivisors
  refine ⟨?_, ?_, ?_⟩
  · obtain ⟨v, u, f', t', hv, hu, ⟨changed, hfold⟩ | ⟨hsafe, -⟩, hf', hmem⟩ := hleast false
    · obtain ⟨w, i, hw, rfl⟩ := hu.integer
      cases hv
      obtain rfl : w = 2147483647 := Int32.toInt_inj.1 hw
      exact ⟨changed, f', t', i, hfold, hf', hmem⟩
    · cases hsafe
  · have hrun : Edit.foldProgram (leastQuotientForest true) = .error (.divisionByZero "f" "1 / 0")
        (after Edit.foldProgram (leastQuotientForest true)) := by rfl
    obtain ⟨v, u, f', t', hv, hu, ⟨changed, hfold⟩ | ⟨-, e', hfold⟩, hf', hmem⟩ := hleast true
    · cases hrun.symm.trans hfold
    · obtain ⟨w, i, hw, rfl⟩ := hu.integer
      cases hv
      obtain rfl : w = 2147483647 := Int32.toInt_inj.1 hw
      cases hrun.symm.trans hfold
      exact ⟨_, t', i, hrun, hf', hmem⟩
  · obtain ⟨v, u, f', t', hv, hu, hfold, hf', hmem⟩ := hzero
    obtain rfl : v = 7 := Int32.toInt_inj.1 (Option.some.inj hv).symm
    exact ⟨f', t', u, hfold, hf', hmem, hu⟩

end Midend
