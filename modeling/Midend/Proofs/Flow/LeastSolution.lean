import Mathlib.Data.DFinsupp.WellFounded
import Midend.Proofs.Flow.Edges
import Midend.Proofs.Flow.Solver

/-!
# The least solution

A monotone analysis whose facts have no endless ascending chain has a least
solution, and this is what passes settle on. Each pass that changes something
raises the facts, which can be done only so often, and on the way the facts stay
below every solution.

There is only one least solution, so it does not matter in which order the passes
visit the instructions, nor whether they keep to one order.

* `Equations`: the equations of an analysis, in the order of execution;
* `IsMonotone.exists_settleAlong?`: passes along any orders settle;
* `solver_finds_least_solution`: what they settle on is the least solution.
-/

namespace Midend

open OrderDual (toDual toDual_inj)

/-! ## Ascending facts -/

section Chains

variable {φ : Type} [PartialOrder φ] {x y : Facts φ}

theorem Facts.Below.antisymm (h : Facts.Below x y) (h' : Facts.Below y x) : x = y := by
  refine Array.ext h.size_eq fun i hx hy => ?_
  have hxi := Array.getElem?_eq_getElem hx
  have hyi := Array.getElem?_eq_getElem hy
  exact le_antisymm (h.le hxi hyi) (h'.le hyi hxi)

/-- The facts around an instruction have no endless ascending chain if single facts
    have none. -/
instance [WellFoundedGT φ] : WellFoundedGT (Point φ) where
  wf := by
    refine Subrelation.wf ?_ (InvImage.wf (fun p : Point φ => (p.entry, p.exit)) wellFounded_gt)
    intro p q h
    exact ⟨h.le, h.not_ge⟩

/-- Nor have the facts around all instructions. -/
theorem Facts.wellFounded_below [WellFoundedGT φ] (d : Point φ) (n : Nat) :
    WellFounded fun y x : Facts φ => x.size = n ∧ Facts.Below x y ∧ x ≠ y := by
  let points (x : Facts φ) (i : Fin n) : (Point φ)ᵒᵈ := toDual (x[i.1]?.getD d)
  refine Subrelation.wf ?_ (InvImage.wf points wellFounded_lt)
  rintro y x ⟨rfl, hb, hne⟩
  have hpoint : ∀ (z : Facts φ) (i : Fin x.size) (h : i.1 < z.size),
      points z i = toDual z[i.1] := by
    intro z i h
    simp [points, h]
  refine lt_of_le_of_ne (fun i => ?_) fun heq => hne (Array.ext hb.size_eq fun i hx hy => ?_)
  · have hy : i.1 < y.size := hb.size_eq ▸ i.2
    rw [hpoint y i hy, hpoint x i i.2]
    exact hb.le (Array.getElem?_eq_getElem i.2) (Array.getElem?_eq_getElem hy)
  · have hi := congrFun heq ⟨i, hx⟩
    rw [hpoint y ⟨i, hx⟩ hy, hpoint x ⟨i, hx⟩ hx] at hi
    exact (toDual_inj.1 hi).symm

end Chains

namespace Analysis

variable {φ : Type} {a : Analysis φ} {g : FlowGraph}

namespace IsMonotone

variable [PartialOrder φ] [DecidableEq φ] (ha : a.IsMonotone)
include ha

/-- Visits that note a change end with other facts, also if they come to an
    instruction more than once: what was raised stays so. -/
theorem foldl_visit_ne {is : List Nat} {facts : Facts φ} (h : a.Ascending g facts)
    (hs : ∀ i ∈ is, i < facts.size) (hc : (is.foldl (a.visit g) (facts, false)).2 = true) :
    facts ≠ (is.foldl (a.visit g) (facts, false)).1 := by
  induction is with
  | nil => cases hc
  | cons i is ih =>
    rw [List.foldl_cons] at hc ⊢
    by_cases hi : facts[i]? = some (a.recompute g facts i)
    · rw [visit_of_solved false hi] at hc ⊢
      exact ih (fun j hj => hs j (List.mem_cons_of_mem _ hj)) hc
    · obtain ⟨h₁, hb₁⟩ : a.Ascending g (a.visit g (facts, false) i).1 ∧
          Facts.Below facts (a.visit g (facts, false) i).1 := ha.ascending_visit h i
      have hb₂ := (ha.ascending_foldl_visit is h₁).2
      intro heq
      rw [← heq] at hb₂
      have hsame : facts = (a.visit g (facts, false) i).1 := hb₁.antisymm hb₂
      rw [visit_of_not_solved false hi] at hsame
      rw [hsame, Array.getElem?_setIfInBounds_self_of_lt (hs i List.mem_cons_self), ← hsame] at hi
      exact hi rfl

/-- Passes along any orders settle. -/
theorem exists_settleAlong? [WellFoundedGT φ] {facts : Facts φ} (h : a.Ascending g facts)
    (hs : facts.size = g.size) {orders : Nat → List Nat} (ho : ∀ k, Covers g (orders k)) :
    ∃ n r, a.settleAlong? g orders n facts = some r := by
  induction facts using (Facts.wellFounded_below ⟨a.initial, a.initial⟩ g.size).induction
    generalizing orders with
  | h facts ih =>
    obtain ⟨h₁, hb⟩ : a.Ascending g (a.passAlong g (orders 0) facts).1 ∧
        Facts.Below facts (a.passAlong g (orders 0) facts).1 :=
      ha.ascending_foldl_visit (orders 0) h
    by_cases hc : (a.passAlong g (orders 0) facts).2 = true
    · have hne := ha.foldl_visit_ne h (fun i hi => hs ▸ (ho 0 i).1 hi) hc
      obtain ⟨n, r, hr⟩ := ih _ ⟨hs, hb, hne⟩ h₁ (hb.size_eq ▸ hs) fun k => ho (k + 1)
      exact ⟨n + 1, r, by rw [settleAlong?_succ, if_pos hc]; exact hr⟩
    · exact ⟨1, _, by rw [settleAlong?_succ, if_neg hc]⟩

/-- What passes settle on is the least solution. -/
theorem least_of_settleAlong? {orders : Nat → List Nat} (ho : ∀ k, Covers g (orders k)) {n : Nat}
    {r : Facts φ} (h : a.settleAlong? g orders n (a.start g) = some r) :
    a.IsSolution g r ∧ ∀ x, a.IsSolution g x → Facts.Below r x :=
  ⟨isSolution_of_settleAlong? ho (by rw [start, Array.size_replicate]) h,
    fun _ hx => ha.settleAlong?_below h hx (ha.start_below hx)⟩

end IsMonotone

/-! ## The equations -/

variable (a g)

/-- The facts before and after each instruction satisfy the equations of the
    analysis. Going forward, what holds before an instruction is the meet of what
    holds after its predecessors, and what holds after it is transferred from there.
    Going backward, it is the other way around. -/
def Equations (before after : Nat → φ) : Prop :=
  ∀ i < g.size,
    match a.direction with
    | .forward =>
      before i = a.meet ((g.predecessors i).map after) ∧ after i = a.transfer i (before i)
    | .backward =>
      after i = a.meet ((g.successors i).map before) ∧ before i = a.transfer i (after i)

/-- The fact just before an instruction. -/
def beforeAt (facts : Facts φ) (i : Nat) : φ :=
  (facts[i]?.map (·.before a.direction)).getD a.initial

/-- The fact just after an instruction. -/
def afterAt (facts : Facts φ) (i : Nat) : φ :=
  (facts[i]?.map (·.after a.direction)).getD a.initial

/-- What enters the instructions, of the facts before and after them. -/
def entering (before after : Nat → φ) : Nat → φ :=
  match a.direction with
  | .forward => before
  | .backward => after

/-- What exits from the instructions, of the facts before and after them. -/
def exiting (before after : Nat → φ) : Nat → φ :=
  match a.direction with
  | .forward => after
  | .backward => before

/-- The facts before and after each instruction of a method, in a table. -/
def tabulate (before after : Nat → φ) : Facts φ :=
  Array.ofFn fun i : Fin g.size => ⟨a.entering before after i, a.exiting before after i⟩

variable {a g}

theorem equations_iff {before after : Nat → φ} : a.Equations g before after ↔ ∀ i < g.size,
    a.entering before after i = a.meet ((a.sources g i).map (a.exiting before after)) ∧
      a.exiting before after i = a.transfer i (a.entering before after i) := by
  unfold Equations entering exiting sources
  cases a.direction <;> rfl

instance [DecidableEq φ] (before after : Nat → φ) : Decidable (a.Equations g before after) :=
  decidable_of_iff' _ equations_iff

theorem exitAt_eq_exiting (facts : Facts φ) :
    a.exitAt facts = a.exiting (a.beforeAt facts) (a.afterAt facts) := by
  funext i
  unfold exitAt exiting beforeAt afterAt
  cases a.direction <;> rfl

/-- The facts around an instruction are what they would be recomputed to exactly if they
    satisfy the equations there. -/
theorem getElem?_eq_recompute_iff {facts : Facts φ} {i : Nat} (hi : i < facts.size) :
    facts[i]? = some (a.recompute g facts i) ↔
      a.entering (a.beforeAt facts) (a.afterAt facts) i =
          a.meet ((a.sources g i).map (a.exiting (a.beforeAt facts) (a.afterAt facts))) ∧
        a.exiting (a.beforeAt facts) (a.afterAt facts) i =
          a.transfer i (a.entering (a.beforeAt facts) (a.afterAt facts) i) := by
  have hp := Array.getElem?_eq_getElem hi
  have hentry : a.entering (a.beforeAt facts) (a.afterAt facts) i = facts[i].entry := by
    unfold entering beforeAt afterAt
    cases a.direction <;> simp only [hp] <;> rfl
  rw [← exitAt_eq_exiting, hentry, a.exitAt_eq hp, hp, Option.some.injEq, recompute]
  obtain ⟨entry, exit⟩ := facts[i]
  simp only [Point.mk.injEq]
  refine and_congr_right ?_
  rintro rfl
  exact Iff.rfl

/-- A solution satisfies the equations. -/
theorem IsSolution.equations {facts : Facts φ} (h : a.IsSolution g facts) :
    a.Equations g (a.beforeAt facts) (a.afterAt facts) :=
  equations_iff.2 fun i hi => (getElem?_eq_recompute_iff (h.size_eq ▸ hi)).1 (h.solved i hi)

theorem getElem?_tabulate {before after : Nat → φ} {i : Nat} (hi : i < g.size) :
    (a.tabulate g before after)[i]? =
      some ⟨a.entering before after i, a.exiting before after i⟩ := by
  rw [tabulate, Array.getElem?_ofFn, dif_pos hi]

/-- What satisfies the equations is a solution, if all edges of the graph are between
    instructions. -/
theorem Equations.isSolution {before after : Nat → φ} (h : a.Equations g before after)
    (hg : ∀ {i j}, j ∈ g.successors i → j < g.size) :
    a.IsSolution g (a.tabulate g before after) where
  size_eq := Array.size_ofFn
  solved i hi := by
    have hlt : ∀ j ∈ a.sources g i, j < g.size := by
      intro j hj
      unfold sources at hj
      cases hd : a.direction with
      | forward =>
        rw [hd] at hj
        exact FlowGraph.lt_size_of_mem_successors (FlowGraph.mem_predecessors.1 hj)
      | backward =>
        rw [hd] at hj
        exact hg hj
    have hsources : (a.sources g i).map (a.exitAt (a.tabulate g before after)) =
        (a.sources g i).map (a.exiting before after) :=
      List.map_congr_left fun j hj => a.exitAt_eq (getElem?_tabulate (hlt j hj))
    obtain ⟨hentry, hexit⟩ := equations_iff.1 h i hi
    rw [getElem?_tabulate hi, recompute, hsources, ← hentry, ← hexit]

/-- Facts that lie below others in a table do so before and after each
    instruction. -/
theorem le_of_below_tabulate [PartialOrder φ] {facts : Facts φ} {before after : Nat → φ}
    (h : Facts.Below facts (a.tabulate g before after)) {i : Nat} (hi : i < g.size) :
    a.beforeAt facts i ≤ before i ∧ a.afterAt facts i ≤ after i := by
  have hsize : facts.size = g.size := h.size_eq.trans Array.size_ofFn
  have hp := Array.getElem?_eq_getElem (hsize ▸ hi)
  have hle := h.le hp (getElem?_tabulate hi)
  unfold beforeAt afterAt
  unfold entering exiting at hle
  rw [hp]
  cases hd : a.direction with
  | forward =>
    rw [hd] at hle
    exact hle
  | backward =>
    rw [hd] at hle
    exact hle.symm

/-- Passes over a method settle, for a monotone analysis of facts without endless
    ascending chains. What they settle on is the least of all facts that satisfy the
    equations of the analysis, and they do so in whichever orders they visit the
    instructions. -/
theorem solver_finds_least_solution [PartialOrder φ] [WellFoundedGT φ] [DecidableEq φ]
    (ha : a.IsMonotone) {m : Method} (hg : m.flowGraph = .ok g) :
    ∃ r : Facts φ, r.size = g.size ∧ (∃ n, ∀ k, n ≤ k → a.solve? g k = some r) ∧
      a.Equations g (a.beforeAt r) (a.afterAt r) ∧
      (∀ before after, a.Equations g before after → ∀ i < g.size,
        a.beforeAt r i ≤ before i ∧ a.afterAt r i ≤ after i) ∧
      ∀ orders : Nat → List Nat, (∀ k, Covers g (orders k)) →
        ∃ n, ∀ k, n ≤ k → a.settleAlong? g orders k (a.start g) = some r := by
  have hsettle : ∀ orders : Nat → List Nat, (∀ k, Covers g (orders k)) →
      ∃ n r, a.settleAlong? g orders n (a.start g) = some r := fun _ ho =>
    ha.exists_settleAlong? ha.ascending_start (by rw [start, Array.size_replicate]) ho
  have hpass : ∀ _ : Nat, Covers g (a.order g) := fun _ => a.covers_order g
  obtain ⟨n, r, hr⟩ := hsettle _ hpass
  obtain ⟨hsol, hleast⟩ := ha.least_of_settleAlong? hpass hr
  refine ⟨r, hsol.size_eq, ⟨n, fun k hk => ?_⟩, hsol.equations, fun before after heq i hi => ?_,
    fun orders ho => ?_⟩
  · rw [solve?, settle?_eq_settleAlong?]
    exact settleAlong?_mono hr hk
  · exact le_of_below_tabulate (hleast _ (heq.isSolution (Method.lt_size_of_flowGraph hg))) hi
  · obtain ⟨n', r', hr'⟩ := hsettle orders ho
    obtain ⟨hsol', hleast'⟩ := ha.least_of_settleAlong? ho hr'
    obtain rfl : r = r' := (hleast r' hsol').antisymm (hleast' r hsol)
    exact ⟨n', fun k hk => settleAlong?_mono hr' hk⟩

/-- Whether control may come to an instruction: it starts at those to which none leads,
    and is passed on. -/
def reachability : Analysis Bool where
  direction := .forward
  initial := false
  transfer _ x := x
  meet facts := facts.isEmpty || facts.any id

theorem isMonotone_reachability : reachability.IsMonotone where
  transfer_le _ _ _ h := h
  meet_le {xs ys} h := by
    cases h with
    | nil => exact le_refl _
    | cons hxy h =>
      simp only [reachability, List.isEmpty_cons, Bool.false_or, List.any_cons, id]
      refine sup_le_sup hxy ?_
      induction h with
      | nil => exact le_refl _
      | cons hxy _ ih => exact sup_le_sup hxy ih
  initial_le _ := Bool.false_le _

/-- A method that returns at once, with a loop behind. -/
def deadLoop : Method :=
  Method.empty "deadLoop" true
    |>.push (.ret none)
    |>.label "again"
    |>.push (.goto "again")

/-- The least solution does not reach the loop, although a larger one would. -/
theorem solver_finds_least_solution_deadLoop :
    deadLoop.flowGraph = .ok ⟨#[[], [1]]⟩ ∧ reachability.IsMonotone ∧
      reachability.Equations ⟨#[[], [1]]⟩ (fun _ => true) (fun _ => true) ∧
      ∃ r n, reachability.solve? ⟨#[[], [1]]⟩ n = some r ∧
        reachability.beforeAt r 0 = true ∧ reachability.beforeAt r 1 = false := by
  have hg : deadLoop.flowGraph = .ok ⟨#[[], [1]]⟩ := by rfl
  obtain ⟨r, -, ⟨n, hn⟩, heq, hleast, -⟩ :=
    solver_finds_least_solution isMonotone_reachability hg
  refine ⟨hg, isMonotone_reachability, by decide, r, n, hn n (Nat.le_refl n), (heq 0 (by decide)).1,
    ?_⟩
  have hle := (hleast (fun i => i == 0) (fun i => i == 0) (by decide) 1 (by decide)).1
  exact Bool.eq_false_of_le_false hle

end Analysis

end Midend
