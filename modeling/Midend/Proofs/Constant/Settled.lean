import Midend.Proofs.Constant.Branch
import Midend.Proofs.Tree.Methods

/-!
# What settled statements mean

A conditional whose test has a value behaves as the branch that is taken, and a
loop whose test does not hold does nothing. What such statements leave when they
give way behaves in the same way.
-/

namespace Midend

namespace Runtime

variable {ρ ω : Type} {R : Runtime ρ ω} {L : NameSet}

@[simp] theorem run_vacant (a : Bool) (i : NodeId) : R.run L (vacant a i) = .skip := by
  cases a with
  | true => rfl
  | false => rw [vacant, if_neg Bool.false_ne_true, run_singleton, exec_block, run_nil]

@[simp] theorem run_asBranch (b : Tree) (a : Bool) : R.run L (b.asBranch a) = R.exec L b := by
  obtain ⟨i, k, cs⟩ := b
  rw [Tree.asBranch]
  split
  next h =>
    obtain rfl : k = .block := h.2
    exact (R.exec_block L i cs).symm
  next => exact R.run_singleton L _

section Settled

variable {s : RunState ρ ω} {i : NodeId} {t : Tree} {c : Bool}
  (ht : R.eval L s.locals t = pure (.bool c))
include ht

theorem exec_of_taken {l r : List Tree} {b : Tree}
    (hlen : (l ++ b :: r).length = 1 ∨ (l ++ b :: r).length = 2)
    (hl : (t :: l).length = branchIndex c) :
    R.exec L (.node i .conditional (t :: (l ++ b :: r))) s = R.exec L b s := by
  have htest := R.test_of_eval L ht
  cases c with
  | true =>
    obtain rfl : l = [] := by simpa [branchIndex] using hl
    rcases r with _ | ⟨b', _ | _⟩
    · exact (congrFun (R.exec_conditional_one L i t b) s).trans (Behavior.compute_of_eq_pure htest)
    · exact (congrFun (R.exec_conditional_two L i t b b') s).trans
        (Behavior.compute_of_eq_pure htest)
    · simp at hlen
  | false =>
    obtain ⟨a, rfl⟩ : ∃ a, l = [a] := List.length_eq_one_iff.1 (by simpa [branchIndex] using hl)
    obtain rfl : r = [] := by simpa using hlen
    exact (congrFun (R.exec_conditional_two L i t a b) s).trans (Behavior.compute_of_eq_pure htest)

theorem exec_of_not_taken {bs : List Tree} (hlen : bs.length = 1 ∨ bs.length = 2)
    (hbs : bs.length < branchIndex c) :
    R.exec L (.node i .conditional (t :: bs)) s = Behavior.skip s := by
  have htest := R.test_of_eval L ht
  cases c with
  | true => simp [branchIndex] at hbs; simp [hbs] at hlen
  | false =>
    have hone : bs.length = 1 := by
      simp only [branchIndex, Bool.false_eq_true, if_false] at hbs
      omega
    obtain ⟨a, rfl⟩ := List.length_eq_one_iff.1 hone
    exact (congrFun (R.exec_conditional_one L i t a) s).trans (Behavior.compute_of_eq_pure htest)

end Settled

theorem exec_of_skipped {s : RunState ρ ω} {i : NodeId} {t : Tree} (b : Tree)
    (ht : R.eval L s.locals t = pure (.bool false)) :
    R.exec L (.node i .loop [t, b]) s = Behavior.skip s := by
  rw [exec_loop]
  exact Behavior.repeated_of_eq_pure_false (R.test_of_eval L ht)

/-! ## The same meaning -/

/-- A conditional or a loop behaves in the same way if its test has the same
    values, and the statements in it behave in the same way, in all states with a
    property that the body of a loop keeps. -/
theorem exec_control_congr {P : Store ρ → Prop} {i : NodeId} {k : Kind} (hk : k.isControl)
    {t u : Tree} {cs ds : List Tree} (ht : Tree.IsStmt (.node i k (t :: cs)))
    (hu : ∀ s, P s → R.eval L s u = R.eval L s t)
    (hds : List.Forall₂ (fun d c => ∀ s, P s.locals → R.exec L d s = R.exec L c s) ds cs)
    (hkeep : k = .loop → ∀ c ∈ cs, ∀ s e s', P s.locals → R.exec L c s e s' → P s'.locals)
    {s : RunState ρ ω} (hs : P s.locals) :
    R.exec L (.node i k (u :: ds)) s = R.exec L (.node i k (t :: cs)) s := by
  have htest : ∀ s, P s → R.test L u s = R.test L t s := fun s hs => R.test_congr L (hu s hs)
  cases ht with
  | simple _ hk' => rcases Kind.eq_of_isControl hk with rfl | rfl <;> cases hk'
  | block => cases hk
  | conditional _ _ hlen _ =>
    rcases hds with _ | ⟨ha, _ | ⟨hb, _ | _⟩⟩
    · simp at hlen
    · rw [exec_conditional_one, exec_conditional_one]
      refine Behavior.compute_congr (htest _ hs) fun c w => ?_
      cases c with
      | true => exact ha _ hs
      | false => rfl
    · rw [exec_conditional_two, exec_conditional_two]
      refine Behavior.compute_congr (htest _ hs) fun c w => ?_
      cases c with
      | true => exact ha _ hs
      | false => exact hb _ hs
    · simp at hlen
  | loop _ _ _ =>
    -- Each iteration starts in a state with the property, since the body keeps it.
    rcases hds with _ | ⟨hb, _ | _⟩
    rw [exec_loop, exec_loop]
    refine (Behavior.repeated_congr (fun s hs => (htest s hs).symm) (fun s hs => (hb s hs).symm)
      ?_ hs).symm
    exact hkeep rfl _ (List.mem_singleton.2 rfl)

/-- A statement that is made of expressions behaves in the same way in a state in
    which these have the same values. -/
theorem exec_simple_congr {s : RunState ρ ω} {i : NodeId} {k : Kind} {cs ds : List Tree}
    (hk : k.takesExpressions cs.length)
    (hds : ds.map (R.eval L s.locals) = cs.map (R.eval L s.locals)) :
    R.exec L (.node i k ds) s = R.exec L (.node i k cs) s := by
  have hlen : ds.length = cs.length := by simpa using congrArg List.length hds
  rw [exec_node, exec_node]
  cases k with
  | exprStmt | returnStmt | assignment =>
    obtain ⟨c, rfl⟩ := List.length_eq_one_iff.1 (of_decide_eq_true hk)
    obtain ⟨d, rfl⟩ := List.length_eq_one_iff.1 hlen
    have hd : R.eval L s.locals d = R.eval L s.locals c := List.singleton_inj.1 hds
    simp only [List.map_singleton, behavior]
    exact Behavior.compute_congr hd fun _ _ => rfl
  | arrayAssignment =>
    obtain ⟨c, c', rfl⟩ := List.length_eq_two.1 (of_decide_eq_true hk)
    obtain ⟨d, d', rfl⟩ := List.length_eq_two.1 hlen
    obtain ⟨hd, hd'⟩ : R.eval L s.locals d = R.eval L s.locals c ∧
        R.eval L s.locals d' = R.eval L s.locals c' := by simpa using hds
    simp only [List.map_cons, List.map_nil, behavior]
    refine Behavior.compute_congr ?_ fun _ _ => rfl
    simp only [hd, hd']
  | _ => simp [Kind.takesExpressions] at hk

end Runtime

/-! ## The same shape -/

namespace Tree

theorem isStmt_vacant {a : Bool} {i : NodeId} {u : Tree} (hu : u ∈ vacant a i) : u.IsStmt := by
  cases a with
  | true => exact absurd hu List.not_mem_nil
  | false =>
    obtain rfl := List.mem_singleton.1 hu
    exact .block i fun c hc => absurd hc List.not_mem_nil

theorem IsStmt.asBranch {b u : Tree} (h : b.IsStmt) {a : Bool} (hu : u ∈ b.asBranch a) :
    u.IsStmt := by
  obtain ⟨i, k, cs⟩ := b
  rw [Tree.asBranch] at hu
  split at hu
  next hk =>
    obtain rfl : k = .block := hk.2
    exact h.of_mem_block hu
  next => exact List.mem_singleton.1 hu ▸ h

/-- A conditional or a loop is a statement also with another test and other
    statements in it. -/
theorem IsStmt.control {i : NodeId} {k : Kind} {t u : Tree} {cs ds : List Tree} (hk : k.isControl)
    (h : IsStmt (.node i k (t :: cs))) (hu : u.IsExpr) (hlen : ds.length = cs.length)
    (hds : ∀ d ∈ ds, d.IsStmt) : IsStmt (.node i k (u :: ds)) := by
  rcases Kind.eq_of_isControl hk with rfl | rfl
  · exact .conditional i hu (hlen ▸ h.branches.1) hds
  · obtain ⟨b, rfl, -⟩ := h.body
    obtain ⟨c, rfl⟩ := List.length_eq_one_iff.1 hlen
    exact .loop i hu (hds c (List.mem_singleton.2 rfl))

theorem KeepsShape.control {d : Prop} {i : NodeId} {k : Kind} {t u : Tree} {cs ds : List Tree}
    (hk : k.isControl) (h : IsStmt (.node i k (t :: cs))) (hu : u.IsExpr)
    (hlen : ds.length = cs.length) (hds : ∀ d ∈ ds, d.IsStmt) :
    KeepsShape d [.node i k (u :: ds)] [.node i k (t :: cs)] :=
  .of_isStmt (by simpa using h.control hk hu hlen hds) (by simpa using h)

theorem IsStmt.of_mem_control {i : NodeId} {k : Kind} {t : Tree} {cs : List Tree} (hk : k.isControl)
    (h : IsStmt (.node i k (t :: cs))) {c : Tree} (hc : c ∈ cs) : c.IsStmt := by
  rcases Kind.eq_of_isControl hk with rfl | rfl
  · exact h.branches.2 c hc
  · obtain ⟨b, rfl, hb⟩ := h.body
    exact List.mem_singleton.1 hc ▸ hb

end Tree

end Midend
