import Midend.Proofs.Constant.Progress

/-!
# Folding twice

One pass of folding leaves nothing for a second one, also if it stops at an error:
the second pass comes to the same error and changes nothing on the way.

The trees in which folding has nothing to do are given by a relation of their own
(`Folded`). It goes along the visits of the pass, since what the pass does not look
at, such as a third child of a loop, can be anything.

* `Folds.folded`: what folding leaves is of this kind, and ends in the same way.
* `Folded.eq_of_folds`: folding leaves such trees as they are.
-/

namespace Midend

/-- Trees that folding, within the named method, leaves as they are, with the given
    result. -/
inductive Folded : String → List Tree → Except Error Bool → Prop
  | nil (m : String) : Folded m [] (.ok false)
  | cons {m : String} {t : Tree} {ts : List Tree} {r : Except Error Bool} :
    ts ≠ [] → Folded m [t] (.ok false) → Folded m ts r → Folded m (t :: ts) r
  | stop {m : String} {t : Tree} {ts : List Tree} {e : Error} :
    ts ≠ [] → Folded m [t] (.error e) → Folded m (t :: ts) (.error e)
  -- A node that is no conditional and no loop has no value that could be taken.
  | inside {m : String} {i : NodeId} {k : Kind} {cs : List Tree} {e : Error} :
    ¬ k.isControl → Folded (k.methodName?.getD m) cs (.error e) →
    Folded m [.node i k cs] (.error e)
  | keep {m : String} {i : NodeId} {k : Kind} {cs : List Tree} :
    ¬ k.isControl → Folded (k.methodName?.getD m) cs (.ok false) →
    k.folded (k.methodName?.getD m) (literalAt cs 0) (literalAt cs 1) = .ok none →
    Folded m [.node i k cs] (.ok false)
  | divide {m : String} {i : NodeId} {k : Kind} {cs : List Tree} {e : Error} :
    ¬ k.isControl → Folded (k.methodName?.getD m) cs (.ok false) →
    k.folded (k.methodName?.getD m) (literalAt cs 0) (literalAt cs 1) = .error e →
    Folded m [.node i k cs] (.error e)
  -- A conditional or a loop stops at its test.
  | noTest (m : String) (i : NodeId) {k : Kind} :
    k.isControl → Folded m [.node i k []] (.error (.malformed (.missingChild k.label i 0)))
  | test {m : String} {i : NodeId} {k : Kind} {t : Tree} {cs : List Tree} {e : Error} :
    k.isControl → Folded m [t] (.error e) → Folded m [.node i k (t :: cs)] (.error e)
  | integerTest {m : String} {i : NodeId} {k : Kind} {t : Tree} {cs : List Tree} {v : Int32} :
    k.isControl → Folded m [t] (.ok false) → t.literal? = some (.int v) →
    Folded m [.node i k (t :: cs)] (.error (.malformed (.integerCondition k.label i v)))
  -- A conditional with a settled test stops in the branch that is taken.
  | settled {m : String} {i : NodeId} {t s : Tree} {l r : List Tree} {c : Bool} {e : Error} :
    Folded m [t] (.ok false) → t.literal? = some (.bool c) →
    (t :: l).length = branchIndex c → Folded m [s] (.error e) →
    Folded m [.node i .conditional (t :: (l ++ s :: r))] (.error e)
  | unsettled {m : String} {i : NodeId} {t : Tree} {cs : List Tree} {r : Except Error Bool} :
    Folded m [t] (.ok false) → t.literal? = none → Folded m cs r →
    Folded m [.node i .conditional (t :: cs)] r
  -- A loop is entered, or may be.
  | noBody {m : String} {i : NodeId} {t : Tree} :
    Folded m [t] (.ok false) → t.literal? = none ∨ t.literal? = some (.bool true) →
    Folded m [.node i .loop [t]] (.error (.malformed (.missingChild Kind.loop.label i 1)))
  | loop {m : String} {i : NodeId} {t s : Tree} {cs : List Tree} {r : Except Error Bool} :
    Folded m [t] (.ok false) → t.literal? = none ∨ t.literal? = some (.bool true) →
    Folded m [s] r → Folded m [.node i .loop (t :: s :: cs)] r

namespace Folded

variable {m : String} {t : Tree} {ts us : List Tree} {r : Except Error Bool}

theorem cons_ok (ht : Folded m [t] (.ok false)) (hts : Folded m ts r) : Folded m (t :: ts) r := by
  cases ts with
  | nil =>
    cases hts
    exact ht
  | cons => exact .cons (List.cons_ne_nil _ _) ht hts

theorem cons_error {e : Error} (ht : Folded m [t] (.error e)) (ts : List Tree) :
    Folded m (t :: ts) (.error e) := by
  cases ts with
  | nil => exact ht
  | cons => exact .stop (List.cons_ne_nil _ _) ht

theorem append_ok (hus : Folded m us (.ok false)) (hts : Folded m ts r) :
    Folded m (us ++ ts) r := by
  induction us with
  | nil => exact hts
  | cons u us ih =>
    cases us with
    | nil => exact hus.cons_ok hts
    | cons =>
      cases hus with
      | cons _ hu hus => exact hu.cons_ok (ih hus)

theorem append_error {e : Error} (hus : Folded m us (.error e)) (ts : List Tree) :
    Folded m (us ++ ts) (.error e) := by
  induction us with
  | nil => cases hus
  | cons u us ih =>
    cases us with
    | nil => exact hus.cons_error ts
    | cons =>
      cases hus with
      | cons _ hu hus => exact hu.cons_ok (ih hus)
      | stop _ hu => exact hu.cons_error _

theorem leaf (m : String) (i : NodeId) {k : Kind} (hk : ¬ k.isControl)
    (hv : ∀ m x y, k.folded m x y = .ok none) : Folded m [.node i k []] (.ok false) :=
  .keep hk (.nil _) (hv _ _ _)

theorem vacant (m : String) (a : Bool) (i : NodeId) : Folded m (vacant a i) (.ok false) := by
  cases a with
  | true => exact .nil m
  | false => exact .leaf m i (by decide) fun _ _ _ => rfl

/-- The statements of a block that folding leaves as it is are left as they are. -/
theorem asBranch (a : Bool) (h : Folded m [t] (.ok false)) :
    Folded m (t.asBranch a) (.ok false) := by
  unfold Tree.asBranch
  split
  next hblock =>
    obtain ⟨i, k, cs⟩ := t
    obtain rfl : k = .block := hblock.2
    cases h with
    | cons hts => exact absurd rfl hts
    | keep _ hcs _ => exact hcs
  next => exact h

end Folded

theorem map_false_map_or (r : Except Error Bool) (b : Bool) :
    (r.map (b || ·)).map (fun _ => false) = r.map fun _ => false := by
  cases r <;> rfl

/-- What folding leaves has nothing more to fold, and folding it stops where it stopped
    before. -/
theorem Folds.folded {m : String} {a : Bool} {ts us : List Tree} {r : Except Error Bool}
    (h : Folds m a ts us r) : Folded m us (r.map fun _ => false) := by
  induction h with
  | nil m a => exact .nil m
  | cons _ _ _ iht ihts =>
    rw [map_false_map_or]
    exact iht.append_ok ihts
  | stop _ _ iht => exact iht.append_error _
  | inside hk _ ih => exact .inside hk ih
  | keep hk _ hv ih => exact .keep hk ih hv
  | @compute m a b i k cs ds l j =>
    cases l <;> exact .leaf m j Bool.false_ne_true fun _ _ _ => rfl
  | divide hk _ hv ih => exact .divide hk ih hv
  | noTest m a i hk => exact .noTest m i hk
  | test hk ht ih =>
    obtain ⟨u, rfl⟩ := ht.exists_eq
    exact .test hk ih
  | integerTest hk _ hl ih => exact .integerTest hk ih hl
  | settledVacant j | skip j => exact .vacant _ _ j
  | settledInside _ hl hlen hs iht ihs =>
    obtain ⟨v, rfl⟩ := hs.exists_eq
    simp only [List.append_assoc, List.singleton_append]
    exact .settled iht hl hlen ihs
  | settled _ _ _ _ _ ihs => exact ihs.asBranch _
  | unsettled _ hl _ iht ihcs =>
    rw [map_false_map_or]
    exact .unsettled iht hl ihcs
  | noBody _ hl iht => exact .noBody iht hl
  | loop _ hl hs iht ihs =>
    obtain ⟨v, rfl⟩ := hs.exists_eq
    rw [map_false_map_or]
    exact .loop iht hl ihs

/-! ## The second pass -/

/-- Folding such trees changes nothing, and ends as they tell. -/
theorem Folded.eq_of_folds {m : String} {ts : List Tree} {r : Except Error Bool}
    (h : Folded m ts r) {a : Bool} {us : List Tree} {x : Except Error Bool}
    (hfolds : Folds m a ts us x) : us = ts ∧ x = r := by
  induction h generalizing a us x with
  | nil => exact hfolds.eq_nil
  | cons _ _ _ iht ihts =>
    rcases hfolds.cons_cases with ⟨vs, ws, b, r', rfl, ht, hts, rfl⟩ | ⟨vs, e, rfl, ht, rfl⟩
    · obtain ⟨rfl, hb⟩ := iht ht
      obtain ⟨rfl, rfl⟩ := ihts hts
      cases hb
      cases r' <;> exact ⟨rfl, rfl⟩
    · cases (iht ht).2
  | stop _ _ iht =>
    rcases hfolds.cons_cases with ⟨vs, ws, b, r', rfl, ht, -⟩ | ⟨vs, e, rfl, ht, rfl⟩
    · cases (iht ht).2
    · obtain ⟨rfl, he⟩ := iht ht
      exact ⟨rfl, he⟩
  | inside hk _ ih =>
    obtain ⟨ds, r', hds, hr⟩ := hfolds.node_cases hk
    obtain ⟨rfl, rfl⟩ := ih hds
    exact hr
  | keep hk _ hv ih | divide hk _ hv ih =>
    obtain ⟨ds, r', hds, hr⟩ := hfolds.node_cases hk
    obtain ⟨rfl, rfl⟩ := ih hds
    rw [hv] at hr
    exact hr
  | noTest m i hk => exact hfolds.eq_of_noTest hk
  | test hk _ ih =>
    rcases hfolds.test_cases hk with ⟨vs, e, ht, rfl, rfl⟩ | ⟨u, b, ht, -⟩
    · obtain ⟨rfl, he⟩ := ih ht
      exact ⟨rfl, he⟩
    · cases (ih ht).2
  | integerTest hk _ hl ih =>
    rcases hfolds.test_cases hk with ⟨vs, e, ht, -⟩ | ⟨u, b, ht, hint⟩
    · cases (ih ht).2
    · obtain ⟨hu, -⟩ := ih ht
      cases hu
      exact hint hl
  | @settled m i t s l r c e _ hl hlen _ iht ihs =>
    rcases hfolds.conditional_cases with ⟨vs, e, ht, -⟩ | ⟨u, b, ht, hrest⟩
    · cases (iht ht).2
    obtain ⟨hu, -⟩ := iht ht
    cases hu
    rw [hl] at hrest
    rcases hrest with ⟨hnone, -⟩ | ⟨l', s', r', vs, x', hcs, hlen', hs, hx⟩
    · simp [← hlen] at hnone
    · obtain ⟨rfl, htail⟩ := List.append_inj hcs (by simpa using hlen.trans hlen'.symm)
      cases htail
      obtain ⟨rfl, rfl⟩ := ihs hs
      simpa using hx
  | unsettled _ hl _ iht ihcs =>
    rcases hfolds.conditional_cases with ⟨vs, e, ht, -⟩ | ⟨u, b, ht, hrest⟩
    · cases (iht ht).2
    obtain ⟨hu, hb⟩ := iht ht
    cases hu
    cases hb
    rw [hl] at hrest
    obtain ⟨ds, r', hds, rfl, rfl⟩ := hrest
    obtain ⟨rfl, rfl⟩ := ihcs hds
    cases r' <;> exact ⟨rfl, rfl⟩
  | noBody _ hl iht =>
    rcases hfolds.noBody_cases with ⟨vs, e, ht, -⟩ | ⟨u, b, ht, hrest⟩
    · cases (iht ht).2
    · obtain ⟨hu, -⟩ := iht ht
      cases hu
      exact hrest hl
  | @loop m i t s cs r _ hl _ iht ihs =>
    rcases hfolds.loop_cases with ⟨vs, e, ht, -⟩ | ⟨u, b, ht, hrest⟩
    · cases (iht ht).2
    obtain ⟨hu, hb⟩ := iht ht
    cases hu
    cases hb
    have hbody : ∃ vs r', Folds m false [s] vs r' ∧ us = [.node i .loop (t :: (vs ++ cs))] ∧
        x = r'.map (false || ·) := by
      rcases hl with hl | hl <;> rw [hl] at hrest <;> exact hrest
    obtain ⟨vs, r', hs, rfl, rfl⟩ := hbody
    obtain ⟨rfl, rfl⟩ := ihs hs
    cases r' <;> exact ⟨rfl, rfl⟩

/-- A program in which there is nothing to fold is left as it is. -/
theorem Edit.ensures_foldProgram_folded {f : Forest} {t : Tree} {r : Except Error Bool}
    (hf : f.Rooted) (h : f.Carries t) (ht : Folded outsideMethods [t] r) :
    Ensures foldProgram f fun x f' => x = r ∧ f' = f := by
  refine (ensures_foldProgram_folds hf h).mono ?_
  rintro x f' ⟨u, hu, hprogress⟩
  obtain ⟨heq, rfl⟩ := ht.eq_of_folds hu
  obtain rfl := List.singleton_inj.1 heq
  exact ⟨rfl, hprogress.forest_eq⟩

/-! ## Stability -/

/-- Folding is stable after one pass. A second pass after one that succeeds changes nothing
    and tells so, and a second pass after one that stops at an error stops at the same error
    and changes nothing either: what is left has nothing to fold up to there. -/
theorem folding_is_stable {f : Forest} (hf : f.Consistent) (hroot : f.parent? f.root = none) :
    (∀ b f', Edit.foldProgram f = .ok b f' → Edit.foldProgram f' = .ok false f' ∧
      ∃ t, f'.Carries t ∧ Folded Edit.outsideMethods [t] (.ok false)) ∧
    ∀ e f', Edit.foldProgram f = .error e f' → Edit.foldProgram f' = .error e f' ∧
      ∃ t, f'.Carries t ∧ Folded Edit.outsideMethods [t] (.error e) := by
  obtain ⟨t, ht⟩ := hf.exists_carries
  have hfolds := Edit.ensures_foldProgram_folds ⟨hf, hroot⟩ ht
  refine ⟨fun b f' h => ?_, fun e f' h => ?_⟩
  · obtain ⟨u, hu, h'⟩ := hfolds.of_eq_ok h
    have hagain := Edit.ensures_foldProgram_folded h'.rooted h'.carries hu.folded
    exact ⟨hagain.eq_ok, u, h'.carries, hu.folded⟩
  · obtain ⟨u, hu, h'⟩ := hfolds.of_eq_error h
    have hagain := Edit.ensures_foldProgram_folded h'.rooted h'.carries hu.folded
    exact ⟨hagain.eq_error, u, h'.carries, hu.folded⟩

/-- A method in a branch that is taken. It divides by the given integer after statements
    that are folded. -/
def methodInTakenBranch (divisor : Int32) : Forest where
  nodes := #[
    { kind := .conditional, children := [1, 4] },
    { kind := .comparison .less, parent := some 0, children := [2, 3] },
    { kind := .integer 1, parent := some 1 },
    { kind := .integer 2, parent := some 1 },
    { kind := .method "f", parent := some 0, children := [5, 9, 13] },
    { kind := .assignment "x", parent := some 4, children := [6] },
    { kind := .arithmetic .add, parent := some 5, children := [7, 8] },
    { kind := .integer 3, parent := some 6 },
    { kind := .integer 4, parent := some 6 },
    { kind := .conditional, parent := some 4, children := [10, 11] },
    { kind := .boolean true, parent := some 9 },
    { kind := .block, parent := some 9, children := [12] },
    { kind := .returnStmt, parent := some 11 },
    { kind := .assignment "y", parent := some 4, children := [14] },
    { kind := .arithmetic .div, parent := some 13, children := [15, 16] },
    { kind := .integer 1, parent := some 14 },
    { kind := .parentheses, parent := some 14, children := [17] },
    { kind := .integer divisor, parent := some 16 }]
  root := 0

theorem folding_is_stable_methodInTakenBranch :
    (let e : Error := .divisionByZero "f" "1 / 0"
      let f := after Edit.foldProgram (methodInTakenBranch 0)
      Edit.foldProgram (methodInTakenBranch 0) = .error e f ∧ f.root = 0 ∧
        f.children 4 = [5, 12, 13] ∧ Edit.foldProgram f = .error e f) ∧
    let f := after Edit.foldProgram (methodInTakenBranch 2)
    Edit.foldProgram (methodInTakenBranch 2) = .ok true f ∧ f.root = 4 ∧
      f.children 4 = [5, 12, 13] ∧ Edit.foldProgram f = .ok false f := by
  have hzero : (methodInTakenBranch 0).Consistent :=
    Forest.consistent_of_ordered (by decide) (by decide +kernel) (by decide +kernel)
  have htwo : (methodInTakenBranch 2).Consistent :=
    Forest.consistent_of_ordered (by decide) (by decide +kernel) (by decide +kernel)
  refine ⟨?_, ?_⟩
  · intro e f
    have hrun : Edit.foldProgram (methodInTakenBranch 0) = .error e f := by rfl
    have hagain := ((folding_is_stable hzero rfl).2 e f hrun).1
    exact ⟨hrun, by decide +kernel, by decide +kernel, hagain⟩
  · intro f
    have hrun : Edit.foldProgram (methodInTakenBranch 2) = .ok true f := by rfl
    have hagain := ((folding_is_stable htwo rfl).1 true f hrun).1
    exact ⟨hrun, by decide +kernel, by decide +kernel, hagain⟩

end Midend
