import Midend.Pipeline
import Midend.Proofs.Constant.Progress

/-!
# Rounds come to an end

A round that changes something leaves a lighter program, so there are no more rounds
than the program weighs: the limit is never reached, and a larger one makes no
difference (`Edit.roundsWithin_eq_optimize`). The last round changes nothing, so neither pass
finds anything to do in the forest it leaves (`optimizeTree_settles`).
-/

namespace Midend

namespace Edit

open Forest

variable {f f' : Forest}

/-- Neither folding nor propagation finds anything to do. -/
def Settled (f : Forest) : Prop :=
  foldProgram f = .ok false f ∧ propagateProgram f = .ok false f

theorem Settled.round_eq (h : Settled f) : round f = .ok false f := by
  simp only [round, bind, EStateM.bind, h.1, h.2]
  rfl

/-- A round advances the program as both passes together do, and one that changes nothing is
    one in which there was nothing to do. -/
theorem ensures_round {t : Tree} (hf : f.Rooted) (ht : f.Carries t) :
    Ensures round f fun r f' => Advance f t r f' ∧ (r = .ok false → Settled f) := by
  have hfold := ensures_foldProgram_advance hf ht
  rw [round, ensures_bind, Ensures]
  cases h₁ : foldProgram f with
  | error e f₁ => exact ⟨hfold.of_eq_error h₁, by simp⟩
  | ok b f₁ =>
    have hb := hfold.of_eq_ok h₁
    obtain ⟨t₁, hprogress₁, htells₁⟩ := id hb
    have hpropagate := ensures_propagateProgram_advance hprogress₁.rooted hprogress₁.carries
    simp only
    rw [ensures_bind, Ensures]
    cases h₂ : propagateProgram f₁ with
    | error e f₂ =>
      obtain ⟨t₂, hprogress₂, htells₂⟩ := hpropagate.of_eq_error h₂
      exact ⟨⟨t₂, hprogress₁.trans hprogress₂, htells₁.trans htells₂⟩, by simp⟩
    | ok c f₂ =>
      have hc := hpropagate.of_eq_ok h₂
      obtain ⟨t₂, hprogress₂, htells₂⟩ := id hc
      refine ⟨⟨t₂, hprogress₁.trans hprogress₂, htells₁.trans htells₂⟩, fun hbc => ?_⟩
      obtain ⟨rfl, rfl⟩ : b = false ∧ c = false := by simpa using hbc
      obtain rfl := hb.eq_of_not_changed
      obtain rfl := hc.eq_of_not_changed
      exact ⟨h₁, h₂⟩

/-- What every round keeps is kept by all of them. -/
theorem ensures_roundsWithin_of_round {I : Forest → Prop}
    (hround : ∀ {f}, I f → Ensures round f fun _ f' => I f') (hf : I f) (n : Nat) :
    Ensures (roundsWithin n) f fun _ f' => I f' := by
  induction n generalizing f with
  | zero => exact hf
  | succ n ih =>
    refine (hround hf).bind (fun b f₁ h₁ => ?_) fun _ _ h => h
    cases b with
    | false => exact h₁
    | true => exact (ih h₁).bind (fun _ _ h => h) fun _ _ h => h

theorem one_le_weight {t : Tree} (ht : f.Carries t) : 1 ≤ f.weight := by
  rw [ht.weight_eq]
  exact t.one_le_weight

/-- As many rounds as the program weighs are enough. -/
theorem ensures_roundsWithin {t : Tree} (hf : f.Rooted) (ht : f.Carries t) {n : Nat}
    (hn : f.weight ≤ n) :
    Ensures (roundsWithin n) f fun r f' =>
      match r with
      | .ok k => k ≤ f.weight ∧ f'.Rooted ∧ Settled f'
      | .error e => e.IsFault := by
  induction n generalizing f t with
  | zero => exact absurd ((one_le_weight ht).trans hn) (Nat.not_succ_le_zero 0)
  | succ n ih =>
    refine (ensures_round hf ht).bind (fun b f₁ ⟨h₁, hb⟩ => ?_) fun _ _ h => h.1.isFault
    cases b with
    | false =>
      obtain rfl := h₁.eq_of_not_changed
      exact ⟨one_le_weight ht, hf, hb rfl⟩
    | true =>
      have hlt := h₁.weight_lt ht
      obtain ⟨t₁, hprogress, -⟩ := h₁
      refine (ih hprogress.rooted hprogress.carries (by omega)).bind (fun k f₂ ⟨hk, h₂⟩ => ?_)
        fun _ _ h => h
      exact ⟨by omega, h₂⟩

theorem roundsWithin_succ (n : Nat) (f : Forest) :
    roundsWithin (n + 1) f = match round f with
      | .ok true f₁ => ((· + 1) <$> roundsWithin n) f₁
      | .ok false f₁ => .ok 1 f₁
      | .error e f₁ => .error e f₁ := by
  rw [roundsWithin]
  simp only [bind, EStateM.bind]
  cases round f with
  | error e f₁ => rfl
  | ok b f₁ => cases b <;> rfl

/-- A limit on the rounds that the program does not exceed has no effect. -/
theorem roundsWithin_eq {t : Tree} (hf : f.Rooted) (ht : f.Carries t) {n : Nat}
    (hn : f.weight ≤ n) : roundsWithin (n + 1) f = roundsWithin n f := by
  induction n generalizing f t with
  | zero => exact absurd ((one_le_weight ht).trans hn) (Nat.not_succ_le_zero 0)
  | succ n ih =>
    rw [roundsWithin_succ, roundsWithin_succ n]
    cases hr : round f with
    | error e f₁ => rfl
    | ok b f₁ =>
      cases b with
      | false => rfl
      | true =>
        obtain ⟨h₁, -⟩ := (ensures_round hf ht).of_eq_ok hr
        have hlt := h₁.weight_lt ht
        obtain ⟨t₁, hprogress, -⟩ := h₁
        have hrest := ih hprogress.rooted hprogress.carries (show f₁.weight ≤ n by omega)
        simp only [Functor.map, EStateM.map, hrest]

theorem roundsWithin_eq_optimize (hf : f.Rooted) {n : Nat} (hn : f.weight ≤ n) :
    roundsWithin n f = optimize f := by
  obtain ⟨t, ht⟩ := hf.exists_carries
  induction n, hn using Nat.le_induction with
  | base => rfl
  | succ n hn ih => rw [roundsWithin_eq hf ht hn, ih]

theorem Settled.optimize_eq (hf : f.Rooted) (h : Settled f) : optimize f = .ok 1 f := by
  obtain ⟨t, ht⟩ := hf.exists_carries
  obtain ⟨n, hn⟩ : ∃ n, f.weight = n + 1 := ⟨f.weight - 1, by have := one_le_weight ht; omega⟩
  rw [← roundsWithin_eq_optimize hf hn.le, roundsWithin_succ, h.round_eq]

end Edit

/-- Optimizing a tree comes to an end, at a tree in which neither pass finds anything to do,
    after no more rounds than there are nodes and identifiers in the program; or it stops at
    a fault of the program. -/
theorem optimizeTree_settles {s : Settings} (hs : s.optimize = true) {f : Forest}
    (hf : f.Consistent) (hroot : f.parent? f.root = none) :
    (f.program.Nodup ∧ ∀ i, i ∈ f.program ↔ f.Above f.root i) ∧
    (∀ n, f.weight ≤ n → Edit.roundsWithin n f = s.optimizeTree f) ∧
    (∀ e f', s.optimizeTree f = .error e f' → e.IsFault) ∧
    ∀ r f', s.optimizeTree f = .ok r f' →
      r ≤ f.weight ∧ Edit.foldProgram f' = .ok false f' ∧ Edit.propagateProgram f' = .ok false f' ∧
        s.optimizeTree f' = .ok 1 f' := by
  have hrooted : f.Rooted := ⟨hf, hroot⟩
  obtain ⟨t, ht⟩ := hf.exists_carries
  have hrounds := Edit.ensures_roundsWithin hrooted ht (Nat.le_refl f.weight)
  rw [Settings.optimizeTree, if_pos hs]
  refine ⟨⟨hf.nodup_program, fun _ => hf.mem_program_iff⟩, fun n hn =>
    Edit.roundsWithin_eq_optimize hrooted hn, fun e f' h => hrounds.of_eq_error h, fun r f' h => ?_⟩
  obtain ⟨hr, hrooted', hsettled⟩ := hrounds.of_eq_ok h
  exact ⟨hr, hsettled.1, hsettled.2, hsettled.optimize_eq hrooted'⟩

/-- A conditional as the root of a program. -/
def bareConditional : Forest where
  nodes := #[
    { kind := .conditional, children := [1, 4] },
    { kind := .comparison .less, parent := some 0, children := [2, 3] },
    { kind := .integer 1, parent := some 1 },
    { kind := .integer 2, parent := some 1 },
    { kind := .method "f", parent := some 0, children := [5, 6, 8] },
    { kind := .varDecl "x" "int", parent := some 4 },
    { kind := .assignment "x", parent := some 4, children := [7] },
    { kind := .integer 7, parent := some 6 },
    { kind := .returnStmt, parent := some 4, children := [9] },
    { kind := .parentheses, parent := some 8, children := [10] },
    { kind := .identifier "x", parent := some 9 }]
  root := 0

theorem optimizeTree_settles_bareConditional :
    let s : Settings := { optimize := true }
    let f := after s.optimizeTree bareConditional
    bareConditional.weight = 12 ∧ f.root = 4 ∧
      ∃ r ≤ 12, s.optimizeTree bareConditional = .ok r f ∧ Edit.foldProgram f = .ok false f ∧
        Edit.propagateProgram f = .ok false f ∧ s.optimizeTree f = .ok 1 f := by
  intro s f
  have hf : bareConditional.Consistent :=
    Forest.consistent_of_ordered (by decide) (by decide +kernel) (by decide +kernel)
  have hweight : bareConditional.weight = 12 := by decide +kernel
  obtain ⟨r, hr⟩ : ∃ r, s.optimizeTree bareConditional = .ok r f :=
    eq_ok_of_succeeds (by decide +kernel)
  obtain ⟨hle, hsettled⟩ := (optimizeTree_settles rfl hf rfl).2.2.2 r f hr
  exact ⟨hweight, by decide +kernel, r, hweight ▸ hle, hr, hsettled⟩

end Midend
