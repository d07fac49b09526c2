import Midend.Proofs.Constant.Propagation
import Midend.Proofs.Constant.Settled

/-!
# Propagation preserves meaning

What is known at a point of a method holds whenever a run is there: a known
variable is a local and has its known value (`Known.Holds`). This is kept by every
statement that ends normally. Branches start with what is known before them, and
after them only what both agree on is used; within a loop only locals are known
that it does not assign, so that it holds in every iteration.

Where what is known holds, substitution changes the value of no expression, and a
test that became a literal has this value. So the statements of a method, of which
nothing is known at first, mean what they meant.

* `Propagates.tracks`: statements mean the same where what is known before them
  holds, and what is known after them holds then.
* `propagateProgram_preserves_outcomes`: propagation changes the outcomes of no
  method.
-/

namespace Midend

open Midend.Tree

variable {ρ ω : Type} {R : Runtime ρ ω} {L : NameSet} {K K₁ K₂ : Known}

/-! ## What is known -/

namespace Known

/-- Only locals are known, and they have the values that are known. -/
def Holds (K : Known) (L : NameSet) (s : Store ρ) : Prop :=
  ∀ x l, K[x]? = some l → x ∈ L ∧ s x = l.value

namespace Holds

variable {s s' : Store ρ}

theorem empty : Holds ∅ L s := by
  intro x l h
  simp at h

theorem meet_left (h : K₁.Holds L s) (K₂ : Known) : (K₁.meet K₂).Holds L s := fun x l hx =>
  h x l (getElem?_meet_eq_some_iff.1 hx).1

theorem meet_right (h : K₂.Holds L s) (K₁ : Known) : (K₁.meet K₂).Holds L s := fun x l hx =>
  h x l (getElem?_meet_eq_some_iff.1 hx).2

theorem forget (h : K.Holds L s) (names : List String) : (K.forget names).Holds L s := by
  intro x l hx
  rw [getElem?_forget] at hx
  split at hx
  next => cases hx
  next => exact h x l hx

/-- What is not forgotten holds as long as only the other locals change. -/
theorem of_changes {names : List String} (h : (K.forget names).Holds L s)
    (hs : ∀ x ∉ names, s' x = s x) : (K.forget names).Holds L s' := by
  intro x l hx
  have hname : x ∉ names := by
    intro hmem
    rw [getElem?_forget, if_pos hmem] at hx
    cases hx
  exact hs x hname ▸ h x l hx

theorem entering (h : K.Holds L s) (t : Tree) : (K.entering t).Holds L s := by
  unfold Known.entering
  split
  · exact h.forget _
  · exact h

/-- After an assignment to a local its value is known, or nothing is known of it. -/
theorem assign {x : String} {v : Value ρ} {l : Option Literal} (h : K.Holds L s) (hx : x ∈ L)
    (hl : ∀ l' ∈ l, v = l'.value) : (K.assign L x l).Holds L (Function.update s x v) := by
  intro y l' hy
  cases l with
  | none =>
    simp only [Known.assign, if_pos hx, Std.ExtTreeMap.getElem?_erase] at hy
    split at hy
    next => cases hy
    next hne =>
      rw [Function.update_of_ne (by rintro rfl; simp at hne)]
      exact h y l' hy
  | some l =>
    simp only [Known.assign, if_pos hx, Std.ExtTreeMap.getElem?_insert] at hy
    split at hy
    next heq =>
      obtain rfl : x = y := by simpa using heq
      cases hy
      exact ⟨hx, by rw [Function.update_self, hl _ rfl]⟩
    next hne =>
      rw [Function.update_of_ne (by rintro rfl; simp at hne)]
      exact h y l' hy

end Holds

end Known

/-! ## Expressions -/

namespace Substitutes

variable {ts us : List Tree} {b : Bool}

/-- Expressions keep their values, where what is known holds. -/
theorem eval_eq (h : Substitutes K ts us b) {s : Store ρ} (hs : K.Holds L s) :
    us.map (R.eval L s) = ts.map (R.eval L s) := by
  induction h with
  | nil => rfl
  | @known i x l cs _ _ _ j hx _ ih =>
    obtain ⟨hmem, hval⟩ := hs x l hx
    have hname : R.eval L s (.node i (.identifier x) cs) = pure l.value := by
      rw [Runtime.eval_node, ← hval]
      exact if_pos hmem
    rw [List.map_cons, List.map_cons, ih, Runtime.eval_ofLiteral, hname]
  | unknown _ _ ih => rw [List.map_cons, List.map_cons, ih]
  | node _ _ _ ih ih' =>
    rw [List.map_cons, List.map_cons, ih', Runtime.eval_node, Runtime.eval_node, ih]

theorem eval_test_eq {t u : Tree} (h : Substitutes K [t] [u] b) {s : Store ρ} (hs : K.Holds L s) :
    R.eval L s u = R.eval L s t :=
  List.singleton_inj.1 (h.eval_eq hs)

theorem eval_eq_pure {t u : Tree} {l : Literal} (h : Substitutes K [t] [u] b)
    (hu : u.literal? = some l) {s : Store ρ} (hs : K.Holds L s) : R.eval L s t = pure l.value :=
  (h.eval_test_eq hs).symm.trans (R.eval_of_literal? L hu s)

/-- Expressions remain expressions. -/
theorem isExpr (h : Substitutes K ts us b) (he : ∀ t ∈ ts, t.IsExpr) : ∀ u ∈ us, u.IsExpr := by
  induction h with
  | nil => exact he
  | known j _ _ ih =>
    rw [List.forall_mem_cons] at he ⊢
    refine ⟨.node j ?_ fun c hc => absurd hc List.not_mem_nil, ih he.2⟩
    cases ‹Literal› <;> rfl
  | unknown _ _ ih =>
    rw [List.forall_mem_cons] at he ⊢
    exact ⟨he.1, ih he.2⟩
  | node _ h _ ih ih' =>
    rw [List.forall_mem_cons] at he ⊢
    exact ⟨.node _ (h.length_eq ▸ he.1.takesOperands) (ih fun c => he.1.of_mem), ih' he.2⟩

theorem isExpr_test {t u : Tree} (h : Substitutes K [t] [u] b) (ht : t.IsExpr) : u.IsExpr :=
  h.isExpr (by simpa using ht) u (List.mem_singleton.2 rfl)

/-- A statement that is made of expressions remains one. -/
theorem keepsShape_node {d : Prop} {i : NodeId} {k : Kind} (h : Substitutes K ts us b)
    (hk : k.isCompound = false) (ht : IsItem d (.node i k ts)) :
    KeepsShape d [.node i k us] [.node i k ts] := by
  obtain ⟨hlen, hts⟩ := ht.takesExpressions hk
  have hu : IsStmt (.node i k us) := .simple i (h.length_eq ▸ hlen) (h.isExpr hts)
  exact .of_isStmt (by simpa using hu) (by simpa using .simple i hlen hts)

end Substitutes

/-! ## Statements -/

namespace Runtime

/-- Where what is known holds, the statements mean the same. What is then known
    holds after them. -/
structure Tracks (R : Runtime ρ ω) (L : NameSet) (K : Known) (us ts : List Tree)
    (r : Except Error (Known × Bool)) : Prop where
  same : ∀ s, K.Holds L s.locals → R.run L us s = R.run L ts s
  holds : ∀ K' b, r = .ok (K', b) → ∀ s s', K.Holds L s.locals → R.run L ts s .normal s' →
    K'.Holds L s'.locals

namespace Tracks

variable {ts us : List Tree} {r : Except Error (Known × Bool)}

theorem of_error {e : Error} (h : ∀ s, K.Holds L s.locals → R.run L us s = R.run L ts s) :
    R.Tracks L K us ts (.error e) where
  same := h
  holds := nofun

theorem exec_eq {t u : Tree} (h : R.Tracks L K [u] [t] r) (s : RunState ρ ω)
    (hs : K.Holds L s.locals) : R.exec L u s = R.exec L t s := by
  simpa using h.same s hs

/-- Statements one after the other, the later ones from what is known after the
    earlier ones. -/
theorem cons {t : Tree} {vs : List Tree} {b : Bool} (ht : R.Tracks L K us [t] (.ok (K₁, b)))
    (hts : R.Tracks L K₁ vs ts r) :
    R.Tracks L K (us ++ vs) (t :: ts) (r.map fun (K₂, c) => (K₂, b || c)) where
  same s hs := by
    rw [Runtime.run_append, ← List.singleton_append, Runtime.run_append]
    exact Behavior.andThen_congr (ht.same s hs) fun s₁ h₁ =>
      hts.same s₁ (ht.holds _ _ rfl s s₁ hs h₁)
  holds := by
    rintro K' c hr s s' hs hrun
    rcases r with e | ⟨K₂, c'⟩
    · cases hr
    · cases hr
      rw [← List.singleton_append, Runtime.run_append] at hrun
      rcases hrun with ⟨s₁, h₁, h₂⟩ | ⟨hne, -⟩
      · exact hts.holds K' c' rfl s₁ s' (ht.holds _ _ rfl s s₁ hs h₁) h₂
      · exact absurd rfl hne

theorem stop {t : Tree} {e : Error} (h : R.Tracks L K us [t] (.error e)) (ts : List Tree) :
    R.Tracks L K (us ++ ts) (t :: ts) (.error e) := by
  refine .of_error fun s hs => ?_
  rw [Runtime.run_append, ← List.singleton_append, Runtime.run_append]
  exact Behavior.andThen_congr (h.same s hs) fun _ _ => rfl

theorem block (h : R.Tracks L K us ts r) (i : NodeId) :
    R.Tracks L K [.node i .block us] [.node i .block ts] r where
  same := by simpa [Runtime.exec_block] using h.same
  holds := by simpa [Runtime.exec_block] using h.holds

/-- A statement that does nothing gives way to nothing. -/
theorem vacant {t : Tree} {b : Bool} (h : ∀ s, K.Holds L s.locals → R.exec L t s = Behavior.skip s)
    (hK : ∀ s : Store ρ, K.Holds L s → K₁.Holds L s) (a : Bool) (i : NodeId) :
    R.Tracks L K (Midend.vacant a i) [t] (.ok (K₁, b)) where
  same s hs := by rw [Runtime.run_vacant, Runtime.run_singleton, h s hs]
  holds := by
    rintro _ _ ⟨⟩ s s' hs hrun
    rw [Runtime.run_singleton, h s hs] at hrun
    obtain ⟨-, rfl⟩ := hrun
    exact hK _ hs

/-- A statement that does what its branch does gives way to it. -/
theorem asBranch {t s v : Tree} {b c : Bool} (hs : R.Tracks L K [v] [s] (.ok (K₁, c)))
    (h : ∀ σ, K.Holds L σ.locals → R.exec L t σ = R.exec L s σ) (a : Bool) :
    R.Tracks L K (v.asBranch a) [t] (.ok (K₁, b)) where
  same σ hσ := by rw [Runtime.run_asBranch, Runtime.run_singleton, h σ hσ, hs.exec_eq σ hσ]
  holds := by
    rintro _ _ ⟨⟩ σ σ' hσ hrun
    rw [Runtime.run_singleton, h σ hσ, ← Runtime.run_singleton] at hrun
    exact hs.holds _ _ rfl σ σ' hσ hrun

/-- A statement that leaves the locals as they are leaves what is known as it is. -/
theorem of_locals_eq {t u : Tree} {b : Bool}
    (hsame : ∀ s, K.Holds L s.locals → R.exec L u s = R.exec L t s)
    (hlocals : ∀ s s', R.exec L t s .normal s' → s'.locals = s.locals) :
    R.Tracks L K [u] [t] (.ok (K, b)) where
  same s hs := by simpa using hsame s hs
  holds := by
    rintro _ _ ⟨⟩ s s' hs hrun
    rw [Runtime.run_singleton] at hrun
    rwa [hlocals s s' hrun]

end Tracks

end Runtime

namespace Substitutes

variable {i : NodeId} {k : Kind} {t u : Tree} {cs ds : List Tree} {b : Bool}

/-- A conditional or a loop behaves as before when it is substituted in its test,
    and the statements in it behave as before where what is known within it holds. -/
theorem exec_control_eq {K' : Known} (h : Substitutes K' [t] [u] b)
    (hK : K.entering (.node i k (t :: cs)) = K') (hk : k.isControl)
    (ht : IsStmt (.node i k (t :: cs)))
    (hds : List.Forall₂ (fun d c => ∀ s, K'.Holds L s.locals → R.exec L d s = R.exec L c s) ds cs)
    {s : RunState ρ ω} (hs : K.Holds L s.locals) :
    R.run L [.node i k (u :: ds)] s = R.run L [.node i k (t :: cs)] s := by
  subst hK
  rw [Runtime.run_singleton, Runtime.run_singleton]
  refine Runtime.exec_control_congr (P := (K.entering (.node i k (t :: cs))).Holds L) hk ht
    (fun s hs => h.eval_test_eq hs) hds ?_ (hs.entering _)
  rintro rfl c hc s e s' hs' hrun
  -- What is known within a loop is of locals that its body does not assign.
  have hsub : c.assigned ⊆ (Tree.node i .loop (t :: cs)).assigned :=
    assigned_subset (List.mem_cons_of_mem _ hc)
  exact Known.Holds.of_changes hs' ((Runtime.changesOnly_exec c).mono hsub s e s' hrun)

end Substitutes

namespace Runtime.Tracks

variable {i : NodeId} {t u s s' v : Tree} {cs ds vs : List Tree} {b b₁ : Bool}
  {r : Except Error (Known × Bool)}

/-- After an assignment of a literal, the value of the local is known. -/
theorem assignment {x : String} (h : Substitutes K [t] [u] b) :
    R.Tracks L K [.node i (.assignment x) [u]] [.node i (.assignment x) [t]]
      (.ok (K.assign L x u.literal?, b)) where
  same s hs := by
    rw [run_singleton, run_singleton]
    exact exec_simple_congr rfl (h.eval_eq hs)
  holds := by
    rintro _ _ ⟨⟩ s s' hs hrun
    rw [run_singleton, exec_assignment] at hrun
    obtain ⟨v, w, hv, hnext⟩ := Behavior.exists_of_compute_normal hrun
    by_cases hx : x ∈ L
    · rw [if_pos hx] at hnext
      obtain ⟨-, rfl⟩ := hnext
      -- If a literal is assigned, the expression before had its value too.
      refine hs.assign hx fun l hl => ?_
      rw [h.eval_eq_pure hl hs] at hv
      cases hv
      rfl
    · rw [if_neg hx] at hnext
      obtain ⟨v', w', -, -, rfl⟩ := Behavior.exists_of_compute_normal hnext
      simpa [Known.assign, hx] using hs

/-- After a conditional with one branch, what is known after the branch and
    before. -/
theorem one (h : Substitutes K [t] [u] b) (ht : IsStmt (.node i .conditional [t, s]))
    (hs : R.Tracks L K [v] [s] r) :
    R.Tracks L K [.node i .conditional [u, v]] [.node i .conditional [t, s]]
      (r.map fun (K₁, b₁) => (K₁.meet K, b || b₁ || false)) where
  same σ hσ := h.exec_control_eq rfl rfl ht (.cons hs.exec_eq .nil) hσ
  holds := by
    rintro K' c hr σ σ' hσ hrun
    rcases r with e | ⟨K₁, b₁⟩ <;> cases hr
    rw [run_singleton, exec_conditional_one] at hrun
    -- The test changes the world only, so what is known holds where the branch starts.
    obtain ⟨taken, w, -, hnext⟩ := Behavior.exists_of_compute_normal hrun
    cases taken with
    | true =>
      exact (hs.holds K₁ b₁ rfl { σ with world := w } σ' hσ (by simpa using hnext)).meet_left K
    | false =>
      obtain ⟨-, rfl⟩ := hnext
      exact Known.Holds.meet_right hσ K₁

/-- After a conditional with two branches, what is known after both. -/
theorem two (h : Substitutes K [t] [u] b) (ht : IsStmt (.node i .conditional [t, s, s']))
    {v' : Tree} (hs : R.Tracks L K [v] [s] (.ok (K₁, b₁))) (hs' : R.Tracks L K [v'] [s'] r) :
    R.Tracks L K [.node i .conditional [u, v, v']] [.node i .conditional [t, s, s']]
      (r.map fun (K₂, b₂) => (K₁.meet K₂, b || b₁ || b₂)) where
  same σ hσ := h.exec_control_eq rfl rfl ht (.cons hs.exec_eq (.cons hs'.exec_eq .nil)) hσ
  holds := by
    rintro K' c hr σ σ' hσ hrun
    rcases r with e | ⟨K₂, b₂⟩ <;> cases hr
    rw [run_singleton, exec_conditional_two] at hrun
    obtain ⟨taken, w, -, hnext⟩ := Behavior.exists_of_compute_normal hrun
    cases taken with
    | true =>
      exact (hs.holds K₁ b₁ rfl { σ with world := w } σ' hσ (by simpa using hnext)).meet_left K₂
    | false =>
      exact (hs'.holds K₂ b₂ rfl { σ with world := w } σ' hσ (by simpa using hnext)).meet_right K₁

/-- After a loop, what is known within it. -/
theorem loop {K' : Known} (hK : K.entering (.node i .loop [t, s]) = K')
    (h : Substitutes K' [t] [u] b) (ht : IsStmt (.node i .loop [t, s]))
    (hs : R.Tracks L K' [v] [s] r) :
    R.Tracks L K [.node i .loop [u, v]] [.node i .loop [t, s]]
      (r.map fun (_, b₁) => (K', b || b₁)) where
  same σ hσ := h.exec_control_eq hK rfl ht (.cons hs.exec_eq .nil) hσ
  holds := by
    rintro K₁ c hr σ σ' hσ hrun
    rcases r with e | ⟨K₂, b₂⟩ <;> cases hr
    subst hK
    rw [run_singleton] at hrun
    exact (hσ.forget _).of_changes (changesOnly_exec _ σ _ σ' hrun)

end Runtime.Tracks

namespace Propagates

variable {a : Bool} {ts us : List Tree} {r : Except Error (Known × Bool)}

/-- Statements mean what they meant, and what is known after them holds. -/
theorem tracks {d : Prop} (h : Propagates L a K ts us r) (hts : ∀ t ∈ ts, t.IsItem d) :
    R.Tracks L K us ts r := by
  -- Where the pass stops, it is enough that the statements mean the same.
  induction h generalizing d with
  | nil =>
    refine ⟨fun _ _ => rfl, ?_⟩
    rintro _ _ ⟨⟩ s s' hs ⟨-, rfl⟩
    exact hs
  | cons _ _ _ ih ih' => exact (ih (d := d) (by simp_all)).cons (ih' (d := d) (by simp_all))
  | stop _ _ ih => exact (ih (d := d) (by simp_all)).stop _
  | @declaration _ _ _ k _ hk =>
    refine .of_locals_eq (fun _ _ => rfl) fun s s' hrun => ?_
    rw [Runtime.exec_node] at hrun
    cases k <;> cases hk <;> exact congrArg RunState.locals hrun.2
  | plain hk h =>
    refine .of_locals_eq (fun s hs => ?_) fun s s' => Runtime.locals_eq_of_isPlain hk
    have ht := (hts _ (List.mem_singleton.2 rfl)).takesExpressions (by simp_all [Kind.isPlain])
    exact Runtime.exec_simple_congr ht.1 (h.eval_eq hs)
  | block h ih =>
    have ht := hts _ (List.mem_singleton.2 rfl)
    exact (ih (d := False) fun c hc => (ht.of_mem_block hc).isItem).block _
  | noValue => exact .of_error fun _ _ => rfl
  | @assignment _ _ _ _ _ _ _ cs h =>
    obtain ⟨hlen, -⟩ := (hts _ (List.mem_singleton.2 rfl)).takesExpressions rfl
    obtain rfl : cs = [] := by simpa [Kind.takesExpressions] using hlen
    exact .assignment h
  | noTest => exact .of_error fun _ _ => rfl
  | integerTest hk h =>
    have ht := (hts _ (List.mem_singleton.2 rfl)).isStmt hk
    exact .of_error fun s => h.exec_control_eq rfl hk ht (List.forall₂_same.2 fun _ _ _ _ => rfl)
  | settledVacant j h hl hbs =>
    have ht := (hts _ (List.mem_singleton.2 rfl)).isStmt rfl
    exact .vacant (fun s hs => Runtime.exec_of_not_taken (h.eval_eq_pure hl hs) ht.branches.1
      (List.getElem?_eq_none_iff.1 hbs)) (fun _ => id) _ j
  | settledInside h hl hlen h' ih =>
    have ht := (hts _ (List.mem_singleton.2 rfl)).isStmt rfl
    obtain ⟨v, rfl⟩ := h'.exists_eq
    have hs := ih (d := False) fun b hb => (ht.branches.2 b (by simp_all)).isItem
    refine .of_error fun s => h.exec_control_eq rfl rfl ht ?_
    rw [List.append_assoc]
    exact List.rel_append (List.forall₂_same.2 fun _ _ _ _ => rfl)
      (.cons hs.exec_eq (List.forall₂_same.2 fun _ _ _ _ => rfl))
  | settled h hl hlen h' ih =>
    have ht := (hts _ (List.mem_singleton.2 rfl)).isStmt rfl
    have hs := ih (d := False) fun b hb => (ht.branches.2 b (by simp_all)).isItem
    exact hs.asBranch (fun σ hσ =>
      Runtime.exec_of_taken (h.eval_eq_pure hl hσ) ht.branches.1 hlen) _
  | noBranch h hl =>
    have ht := (hts _ (List.mem_singleton.2 rfl)).isStmt rfl
    exact .of_error fun s => h.exec_control_eq rfl rfl ht .nil
  | one h hl h' ih =>
    have ht := (hts _ (List.mem_singleton.2 rfl)).isStmt rfl
    obtain ⟨v, rfl⟩ := h'.exists_eq
    exact .one h ht (ih (d := False) fun b hb => (ht.branches.2 b (by simp_all)).isItem)
  | firstInside h hl _ h' ih =>
    have ht := (hts _ (List.mem_singleton.2 rfl)).isStmt rfl
    obtain ⟨v, rfl⟩ := h'.exists_eq
    have hs := ih (d := False) fun b hb => (ht.branches.2 b (by simp_all)).isItem
    exact .of_error fun s => h.exec_control_eq rfl rfl ht
      (.cons hs.exec_eq (List.forall₂_same.2 fun _ _ _ _ => rfl))
  | @two _ _ _ _ _ _ _ _ _ _ _ cs _ _ h hl h₁ h₂ ih ih' =>
    have ht := (hts _ (List.mem_singleton.2 rfl)).isStmt rfl
    obtain ⟨v', rfl⟩ := h₂.exists_eq
    obtain rfl : cs = [] := by simpa using ht.branches.1
    exact .two h ht (ih (d := False) fun b hb => (ht.branches.2 b (by simp_all)).isItem)
      (ih' (d := False) fun b hb => (ht.branches.2 b (by simp_all)).isItem)
  | skip j h hl =>
    have ht := (hts _ (List.mem_singleton.2 rfl)).isStmt rfl
    obtain ⟨b, rfl, hb⟩ := ht.body
    exact .vacant (fun s hs => Runtime.exec_of_skipped b (h.eval_eq_pure hl (hs.entering _)))
      (fun _ hs => hs.entering _) _ j
  | noBody h hl =>
    have ht := (hts _ (List.mem_singleton.2 rfl)).isStmt rfl
    exact .of_error fun s => h.exec_control_eq rfl rfl ht .nil
  | loop h hl h' ih =>
    have ht := (hts _ (List.mem_singleton.2 rfl)).isStmt rfl
    obtain ⟨v, rfl⟩ := h'.exists_eq
    obtain ⟨b, hcs, hb⟩ := ht.body
    obtain ⟨rfl, rfl⟩ := List.cons.inj hcs
    exact .loop rfl h ht (ih (d := False) (by simpa using hb.isItem))

/-! ## Shape -/

/-- Statements remain statements. -/
theorem keepsShape {d : Prop} (h : Propagates L a K ts us r) (hts : ∀ t ∈ ts, t.IsItem d) :
    KeepsShape d us ts := by
  induction h generalizing d with
  | nil => exact ⟨hts, rfl⟩
  | cons _ _ _ ih ih' => exact (ih (by simp_all)).append (ih' (by simp_all))
  | stop _ _ ih => exact (ih (by simp_all)).append ⟨by simp_all, rfl⟩
  | declaration => exact ⟨hts, rfl⟩
  | plain hk h =>
    have ht := hts _ (List.mem_singleton.2 rfl)
    exact h.keepsShape_node (by simp_all [Kind.isPlain]) ht
  | block h ih =>
    have ht := hts _ (List.mem_singleton.2 rfl)
    have hds := (ih (d := False) fun c hc => (ht.of_mem_block hc).isItem).isStmt
    exact .of_isStmt (by simpa using .block _ hds)
      (by simpa using .block _ fun c => ht.of_mem_block)
  | noValue => exact ⟨hts, rfl⟩
  | @assignment _ _ _ _ _ _ _ cs h =>
    have ht := hts _ (List.mem_singleton.2 rfl)
    obtain rfl : cs = [] := by simpa [Kind.takesExpressions] using (ht.takesExpressions rfl).1
    exact h.keepsShape_node rfl ht
  | noTest => exact ⟨hts, rfl⟩
  | integerTest hk h =>
    have ht := (hts _ (List.mem_singleton.2 rfl)).isStmt hk
    exact .control hk ht (h.isExpr_test (ht.isExpr_test hk)) rfl fun c => ht.of_mem_control hk
  | settledVacant | skip =>
    have ht := (hts _ (List.mem_singleton.2 rfl)).isStmt rfl
    exact .of_isStmt (fun u => isStmt_vacant) (by simpa using ht)
  | settledInside h hl hlen h' ih =>
    have ht := (hts _ (List.mem_singleton.2 rfl)).isStmt rfl
    obtain ⟨v, rfl⟩ := h'.exists_eq
    have hv := (ih (d := False) fun b hb => (ht.branches.2 b (by simp_all)).isItem).isStmt
    refine .control rfl ht (h.isExpr_test (ht.isExpr_test rfl)) (by simp) fun c hc => ?_
    rw [List.append_assoc, List.mem_append, List.singleton_append, List.mem_cons] at hc
    rcases hc with hc | rfl | hc
    · exact ht.branches.2 c (by simp [hc])
    · exact hv c (List.mem_singleton.2 rfl)
    · exact ht.branches.2 c (by simp [hc])
  | settled h hl hlen h' ih =>
    have ht := (hts _ (List.mem_singleton.2 rfl)).isStmt rfl
    have hv := (ih (d := False) fun b hb => (ht.branches.2 b (by simp_all)).isItem).isStmt
    exact .of_isStmt (fun u => (hv _ (List.mem_singleton.2 rfl)).asBranch) (by simpa using ht)
  | noBranch h hl | noBody h hl =>
    have ht := (hts _ (List.mem_singleton.2 rfl)).isStmt rfl
    exact .control rfl ht (h.isExpr_test (ht.isExpr_test rfl)) rfl fun c => ht.of_mem_control rfl
  | one h hl h' ih =>
    have ht := (hts _ (List.mem_singleton.2 rfl)).isStmt rfl
    have hvs := (ih (d := False) fun b hb => (ht.branches.2 b (by simp_all)).isItem).isStmt
    exact .control rfl ht (h.isExpr_test (ht.isExpr_test rfl)) (h'.length_eq rfl) hvs
  | firstInside h hl _ h' ih =>
    have ht := (hts _ (List.mem_singleton.2 rfl)).isStmt rfl
    have hvs := (ih (d := False) fun b hb => (ht.branches.2 b (by simp_all)).isItem).isStmt
    refine .control rfl ht (h.isExpr_test (ht.isExpr_test rfl))
      (by simp [h'.length_eq, Nat.add_comm]) fun c hc => ?_
    rcases List.mem_append.1 hc with hc | hc
    · exact hvs c hc
    · exact ht.branches.2 c (List.mem_cons_of_mem _ hc)
  | @two _ _ _ _ _ _ _ _ _ _ _ cs _ _ h hl h₁ h₂ ih ih' =>
    have ht := (hts _ (List.mem_singleton.2 rfl)).isStmt rfl
    obtain rfl : cs = [] := by simpa using ht.branches.1
    have hv := (ih (d := False) fun b hb => (ht.branches.2 b (by simp_all)).isItem).isStmt
    have hvs := (ih' (d := False) fun b hb => (ht.branches.2 b (by simp_all)).isItem).isStmt
    exact .control rfl ht (h.isExpr_test (ht.isExpr_test rfl)) (by simp [h₂.length_eq])
      (by simpa using ⟨hv _ (List.mem_singleton.2 rfl), hvs⟩)
  | loop h hl h' ih =>
    have ht := (hts _ (List.mem_singleton.2 rfl)).isStmt rfl
    obtain ⟨b, hcs, hb⟩ := ht.body
    obtain ⟨rfl, rfl⟩ := List.cons.inj hcs
    have hvs := (ih (d := False) (by simpa using hb.isItem)).isStmt
    exact .control rfl ht (h.isExpr_test (ht.isExpr_test rfl)) (by simp [h'.length_eq])
      (by simpa using hvs)

end Propagates

/-! ## Methods -/

/-- Propagation through a method of a program leaves a program of the same shape
    and with the same outcomes. -/
theorem Edit.ensures_propagateAlone_of_mem {f : Forest} {t : Tree} (hf : f.Carries t)
    (ht : t.WellShaped) {m : NodeId} (hm : m ∈ f.methods) :
    Ensures (propagateAlone m) f fun _ f' =>
      ∃ t', f'.Carries t' ∧ t'.WellShaped ∧ f'.SameOutcomes f := by
  rw [hf.methods_eq] at hm
  obtain ⟨⟨i, k, cs⟩, hu, rfl⟩ := List.mem_map.1 hm
  obtain ⟨hsub, hk⟩ := List.mem_filter.1 hu
  -- The method stands within levels, which the pass leaves as they are.
  obtain ⟨ls, rfl⟩ := Context.exists_enclose hsub
  refine (ensures_propagateAlone hf.shows_of_enclose).mono ?_
  rintro r f' ⟨ds, r', hds, hreduces, -⟩
  have hf' := hreduces.carries_enclose ls hf
  have hmethods : (node i k cs).methods ≠ [] := List.ne_nil_of_mem
    (List.mem_filter.2 ⟨self_mem_subtrees _, hk⟩)
  obtain ⟨ht', hsame⟩ := ht.enclose hmethods (u := .node i k ds) fun hws => by
    cases hws with
    | method _ _ hcs =>
      rw [hf.reads.of_enclose.declared_eq hf.consistent hk hcs] at hds
      refine (hds.keepsShape hcs).sameMethods hk hcs fun R => ?_
      exact funext fun s => (hds.tracks hcs).same s .empty
    | scope _ hk' => simp [Kind.isMethod_eq, of_decide_eq_true hk'] at hk
    | importDecl | field => cases hk
  exact ⟨_, hf', ht', Forest.sameOutcomes_of_sameMethods hf hf' hsame⟩

/-- Propagation changes the outcomes of no method, whether it ends or stops at an
    error. -/
theorem propagateProgram_preserves_outcomes {f : Forest} {t : Tree} (hf : f.Carries t)
    (ht : t.WellShaped) :
    (after Edit.propagateProgram f).methods = f.methods ∧
      ∀ m ∈ f.methods, ∀ {ρ ω : Type} (R : Runtime ρ ω),
        (after Edit.propagateProgram f).Outcomes R m = f.Outcomes R m := by
  have h : Ensures Edit.propagateProgram f fun _ f' =>
      ∃ t', f'.Carries t' ∧ t'.WellShaped ∧ f'.SameOutcomes f := by
    rw [Edit.propagateProgram_eq, ensures_bind, ensures_get]
    -- The methods are listed before the first visit, and no visit changes which they are.
    refine Edit.ensures_visitAll_of_forall ?_ ⟨t, hf, ht, .refl f⟩
    rintro m hm f₁ ⟨t₁, hf₁, ht₁, hsame⟩
    refine (Edit.ensures_propagateAlone_of_mem hf₁ ht₁ (hsame.1 ▸ hm)).mono ?_
    rintro r f₂ ⟨t₂, hf₂, ht₂, hsame'⟩
    exact ⟨t₂, hf₂, ht₂, hsame'.trans hsame⟩
  obtain ⟨r, t', -, -, hsame⟩ := h.after
  exact hsame

/-- A method with a flag that settles a conditional, which clears it, and then a
    loop. -/
def clearedFlag : Forest where
  nodes := #[
    { kind := .program, children := [1] },
    { kind := .method "f", parent := some 0, children := [2, 3, 5, 10, 13] },
    { kind := .varDecl "b" "boolean", parent := some 1 },
    { kind := .assignment "b", parent := some 1, children := [4] },
    { kind := .boolean true, parent := some 3 },
    { kind := .conditional, parent := some 1, children := [6, 7] },
    { kind := .identifier "b", parent := some 5 },
    { kind := .block, parent := some 5, children := [8] },
    { kind := .assignment "b", parent := some 7, children := [9] },
    { kind := .boolean false, parent := some 8 },
    { kind := .loop, parent := some 1, children := [11, 12] },
    { kind := .identifier "b", parent := some 10 },
    { kind := .block, parent := some 10 },
    { kind := .returnStmt, parent := some 1, children := [14] },
    { kind := .identifier "b", parent := some 13 }]
  root := 0

/-- The program of `clearedFlag`, as a tree. -/
def clearedFlagTree : Tree :=
  .node 0 .program [.node 1 (.method "f") [
    .node 2 (.varDecl "b" "boolean") [],
    .node 3 (.assignment "b") [.node 4 (.boolean true) []],
    .node 5 .conditional [.node 6 (.identifier "b") [],
      .node 7 .block [.node 8 (.assignment "b") [.node 9 (.boolean false) []]]],
    .node 10 .loop [.node 11 (.identifier "b") [], .node 12 .block []],
    .node 13 .returnStmt [.node 14 (.identifier "b") []]]]

theorem carries_clearedFlag : clearedFlag.Carries clearedFlagTree where
  consistent := Forest.consistent_of_ordered (by decide) (by decide +kernel) (by decide +kernel)
  reads := by decide +kernel
  root_eq := rfl

theorem wellShaped_clearedFlag : clearedFlagTree.WellShaped := by
  have hexpr : ∀ {i k}, k.takesOperands 0 → IsExpr (.node i k []) := fun hk => .node _ hk (by simp)
  refine .scope 0 rfl (List.forall_mem_singleton.2 (.method 1 rfl ?_))
  simp only [List.forall_mem_cons]
  refine ⟨.inl ⟨trivial, .node 2 rfl⟩, .inr (.simple 3 rfl ?_),
    .inr (.conditional 5 (hexpr rfl) (.inl rfl) ?_), .inr (.loop 10 (hexpr rfl) (.block 12 ?_)),
    .inr (.simple 13 rfl ?_), by simp⟩
  · exact List.forall_mem_singleton.2 (hexpr rfl)
  · refine List.forall_mem_singleton.2 (.block 7 (List.forall_mem_singleton.2 (.simple 8 rfl ?_)))
    exact List.forall_mem_singleton.2 (hexpr rfl)
  · exact fun c hc => absurd hc List.not_mem_nil
  · exact List.forall_mem_singleton.2 (hexpr rfl)

theorem propagateProgram_preserves_outcomes_clearedFlag :
    clearedFlag.Carries clearedFlagTree ∧ clearedFlagTree.WellShaped ∧
      (after Edit.propagateProgram clearedFlag).children 1 = [2, 3, 8, 13] ∧
      ∀ {ρ ω : Type} (R : Runtime ρ ω),
        (after Edit.propagateProgram clearedFlag).Outcomes R 1 = clearedFlag.Outcomes R 1 :=
  ⟨carries_clearedFlag, wellShaped_clearedFlag, by decide +kernel,
    (propagateProgram_preserves_outcomes carries_clearedFlag wellShaped_clearedFlag).2 1
      (by decide +kernel)⟩

end Midend
