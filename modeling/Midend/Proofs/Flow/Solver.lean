import Mathlib.Order.Basic
import Mathlib.Data.List.Forall2
import Mathlib.Data.List.Nodup
import Midend.Flow.Analysis

/-!
# Solving data-flow equations

Facts *solve* an analysis when those of each instruction are the ones computed
from its sources. A pass changes something exactly if the facts do not solve the
analysis yet, so that what repeated passes settle on is a solution.

An analysis is *monotone* when larger facts give larger facts and passes start
from the least fact. Then the facts only ever grow: at any time they lie below
what they would be recomputed to (`Ascending`), and below every solution. Passes
end as soon as there is a rank that every change raises and that stays bounded.

None of this depends on the order in which a pass visits the instructions, so
what passes settle on is first looked at for passes of any orders
(`settleAlong?`).

* `pass_snd_eq_false_iff`: when a pass reports no change;
* `settle?_of_rank`: a bounded rank bounds the number of passes;
* `IsMonotone.ascending_pass`, `IsMonotone.settleAlong?_below`: the facts grow
  from pass to pass, up to the least solution at most.
-/

namespace Midend

namespace Analysis

variable {φ : Type} (a : Analysis φ) (g : FlowGraph)

/-- The facts satisfy the equations of the analysis at every instruction. -/
structure IsSolution (facts : Facts φ) : Prop where
  size_eq : facts.size = g.size
  solved : ∀ i < g.size, facts[i]? = some (a.recompute g facts i)

theorem mem_order {i : Nat} : i ∈ a.order g ↔ i < g.size := by
  rw [order]
  split <;> simp

theorem nodup_order : (a.order g).Nodup := by
  rw [order]
  split
  · exact List.nodup_range
  · exact List.nodup_reverse.2 List.nodup_range

theorem exitAt_eq {facts : Facts φ} {i : Nat} {p : Point φ} (h : facts[i]? = some p) :
    a.exitAt facts i = p.exit := by
  rw [exitAt, h]
  rfl

/-- The order visits all instructions, and nothing else. -/
def Covers (g : FlowGraph) (order : List Nat) : Prop := ∀ i, i ∈ order ↔ i < g.size

theorem covers_order : Covers g (a.order g) := fun _ => a.mem_order g

/-- A property of the facts around an instruction holds of every instruction. -/
def Everywhere (P : Nat → Point φ → Prop) (facts : Facts φ) : Prop :=
  ∀ (i : Nat) (p : Point φ), facts[i]? = some p → P i p

theorem Everywhere.setIfInBounds {P : Nat → Point φ → Prop} {facts : Facts φ}
    (h : Everywhere P facts) {i : Nat} {p : Point φ} (hp : P i p) :
    Everywhere P (facts.setIfInBounds i p) := by
  intro j q hq
  rw [Array.getElem?_setIfInBounds] at hq
  split at hq
  next hij =>
    subst hij
    split at hq
    · cases hq
      exact hp
    · cases hq
  next => exact h j q hq

theorem everywhere_start {a : Analysis φ} {g : FlowGraph} {P : Nat → Point φ → Prop}
    (h : ∀ i, P i ⟨a.initial, a.initial⟩) :
    Everywhere P (a.start g) := by
  intro i p hp
  rw [start, Array.getElem?_replicate] at hp
  split at hp
  · cases hp
    exact h i
  · cases hp

section Passes

variable [DecidableEq φ] {a g}

theorem visit_of_solved {facts : Facts φ} {i : Nat} (c : Bool)
    (h : facts[i]? = some (a.recompute g facts i)) : a.visit g (facts, c) i = (facts, c) := by
  simp only [visit, h, if_pos]

theorem visit_of_not_solved {facts : Facts φ} {i : Nat} (c : Bool)
    (h : facts[i]? ≠ some (a.recompute g facts i)) :
    a.visit g (facts, c) i = (facts.setIfInBounds i (a.recompute g facts i), true) := by
  simp only [visit, h, if_false]

/-- A change that was noted stays noted. -/
theorem foldl_visit_changed (is : List Nat) (facts : Facts φ) :
    (is.foldl (a.visit g) (facts, true)).2 = true := by
  induction is generalizing facts with
  | nil => rfl
  | cons i is ih =>
    rw [List.foldl_cons]
    by_cases h : facts[i]? = some (a.recompute g facts i)
    · rw [visit_of_solved true h]
      exact ih facts
    · rw [visit_of_not_solved true h]
      exact ih _

theorem foldl_visit_of_solved {is : List Nat} {facts : Facts φ} (c : Bool)
    (h : ∀ i ∈ is, facts[i]? = some (a.recompute g facts i)) :
    is.foldl (a.visit g) (facts, c) = (facts, c) := by
  induction is with
  | nil => rfl
  | cons i is ih =>
    rw [List.foldl_cons, visit_of_solved c (h i List.mem_cons_self)]
    exact ih fun j hj => h j (List.mem_cons_of_mem _ hj)

theorem solved_of_foldl_visit {is : List Nat} {facts : Facts φ}
    (h : (is.foldl (a.visit g) (facts, false)).2 = false) :
    ∀ i ∈ is, facts[i]? = some (a.recompute g facts i) := by
  induction is with
  | nil => exact fun _ hi => absurd hi List.not_mem_nil
  | cons i is ih =>
    rw [List.foldl_cons] at h
    by_cases hi : facts[i]? = some (a.recompute g facts i)
    · rw [visit_of_solved false hi] at h
      intro j hj
      rcases List.mem_cons.1 hj with rfl | hj
      · exact hi
      · exact ih h j hj
    · rw [visit_of_not_solved false hi, foldl_visit_changed] at h
      cases h

/-- A pass reports no change exactly if all facts are what they would be recomputed to. -/
theorem pass_snd_eq_false_iff {facts : Facts φ} :
    (a.pass g facts).2 = false ↔ ∀ i < g.size, facts[i]? = some (a.recompute g facts i) := by
  constructor
  · intro h i hi
    exact solved_of_foldl_visit h i ((a.mem_order g).2 hi)
  · intro h
    rw [pass, foldl_visit_of_solved false fun i hi => h i ((a.mem_order g).1 hi)]

/-- A pass that reports no change leaves the facts as they are. -/
theorem pass_fst_eq_of_unchanged {facts : Facts φ} (h : (a.pass g facts).2 = false) :
    (a.pass g facts).1 = facts := by
  rw [pass, foldl_visit_of_solved false (solved_of_foldl_visit h)]

/-- What recomputing establishes, if it holds everywhere, passes keep. -/
theorem Everywhere.pass {P : Nat → Point φ → Prop}
    (hP : ∀ facts, Everywhere P facts → ∀ i, P i (a.recompute g facts i)) {facts : Facts φ}
    (h : Everywhere P facts) : Everywhere P (a.pass g facts).1 := by
  suffices ∀ (is : List Nat) (state : Facts φ × Bool), Everywhere P state.1 →
      Everywhere P (is.foldl (a.visit g) state).1 from this _ _ h
  intro is
  induction is with
  | nil => exact fun _ h => h
  | cons i is ih =>
    rintro ⟨facts, c⟩ h
    refine ih _ ?_
    by_cases hi : facts[i]? = some (a.recompute g facts i)
    · rwa [visit_of_solved c hi]
    · rw [visit_of_not_solved c hi]
      exact h.setIfInBounds (hP facts h i)

/-- Visits leave the facts of the instructions they do not come to. -/
theorem getElem?_foldl_visit {is : List Nat} {facts : Facts φ} {c : Bool} {j : Nat}
    (hj : j ∉ is) : (is.foldl (a.visit g) (facts, c)).1[j]? = facts[j]? := by
  induction is generalizing facts c with
  | nil => rfl
  | cons i is ih =>
    rw [List.mem_cons, not_or] at hj
    rw [List.foldl_cons]
    by_cases h : facts[i]? = some (a.recompute g facts i)
    · rw [visit_of_solved c h]
      exact ih hj.2
    · rw [visit_of_not_solved c h, ih hj.2]
      exact Array.getElem?_setIfInBounds_ne (Ne.symm hj.1)

theorem foldl_visit_ne {is : List Nat} {facts : Facts φ} (hd : is.Nodup)
    (hs : ∀ i ∈ is, i < facts.size) (h : (is.foldl (a.visit g) (facts, false)).2 = true) :
    (is.foldl (a.visit g) (facts, false)).1 ≠ facts := by
  induction is with
  | nil => cases h
  | cons i is ih =>
    rw [List.nodup_cons] at hd
    rw [List.foldl_cons] at h ⊢
    by_cases hi : facts[i]? = some (a.recompute g facts i)
    · rw [visit_of_solved false hi] at h ⊢
      exact ih hd.2 (fun j hj => hs j (List.mem_cons_of_mem _ hj)) h
    · -- No later visit comes to `i`, so what was stored there stays.
      rw [visit_of_not_solved false hi]
      intro he
      have hget : (is.foldl (a.visit g)
          (facts.setIfInBounds i (a.recompute g facts i), true)).1[i]? = _ :=
        getElem?_foldl_visit hd.1
      rw [he, Array.getElem?_setIfInBounds_self_of_lt (hs i List.mem_cons_self)] at hget
      exact hi hget

/-- A pass that reports a change leaves other facts. -/
theorem pass_fst_ne_of_changed {facts : Facts φ} (hs : facts.size = g.size)
    (h : (a.pass g facts).2 = true) : (a.pass g facts).1 ≠ facts :=
  foldl_visit_ne (a.nodup_order g) (fun _ hi => hs ▸ (a.mem_order g).1 hi) h

theorem settle?_succ (n : Nat) (facts : Facts φ) :
    a.settle? g (n + 1) facts =
      if (a.pass g facts).2 then a.settle? g n (a.pass g facts).1
      else some (a.pass g facts).1 := rfl

/-- A pass along an order. -/
def passAlong (a : Analysis φ) (g : FlowGraph) (order : List Nat) (facts : Facts φ) :
    Facts φ × Bool :=
  order.foldl (a.visit g) (facts, false)

/-- Repeats passes, each along an order of its own, until one changes nothing;
    none if the first `n` passes all change something. -/
def settleAlong? (a : Analysis φ) (g : FlowGraph) :
    (Nat → List Nat) → Nat → Facts φ → Option (Facts φ)
  | _, 0, _ => none
  | orders, n + 1, facts =>
    let (facts, changed) := a.passAlong g (orders 0) facts
    if changed then settleAlong? a g (fun k => orders (k + 1)) n facts else some facts

theorem settleAlong?_succ (orders : Nat → List Nat) (n : Nat) (facts : Facts φ) :
    a.settleAlong? g orders (n + 1) facts =
      if (a.passAlong g (orders 0) facts).2 then
        a.settleAlong? g (fun k => orders (k + 1)) n (a.passAlong g (orders 0) facts).1
      else some (a.passAlong g (orders 0) facts).1 := rfl

theorem settle?_eq_settleAlong? (n : Nat) (facts : Facts φ) :
    a.settle? g n facts = a.settleAlong? g (fun _ => a.order g) n facts := by
  induction n generalizing facts with
  | zero => rfl
  | succ n ih => rw [settle?_succ, settleAlong?_succ, ih, pass, passAlong]

theorem size_passAlong (order : List Nat) (facts : Facts φ) :
    (a.passAlong g order facts).1.size = facts.size := by
  suffices ∀ state : Facts φ × Bool, (order.foldl (a.visit g) state).1.size = state.1.size from
    this _
  induction order with
  | nil => exact fun _ => rfl
  | cons i is ih => exact fun state => (ih _).trans (a.size_visit g state i)

/-- A pass along any order that reports no change starts and ends with a
    solution. -/
theorem isSolution_of_passAlong {order : List Nat} (ho : Covers g order) {facts : Facts φ}
    (hs : facts.size = g.size) (h : (a.passAlong g order facts).2 = false) :
    a.IsSolution g (a.passAlong g order facts).1 := by
  have hsolved := solved_of_foldl_visit h
  rw [passAlong, foldl_visit_of_solved false hsolved]
  exact ⟨hs, fun i hi => hsolved i ((ho i).2 hi)⟩

/-- What passes settle on is a solution. -/
theorem isSolution_of_settleAlong? {orders : Nat → List Nat} (ho : ∀ k, Covers g (orders k))
    {n : Nat} {facts r : Facts φ} (hs : facts.size = g.size)
    (h : a.settleAlong? g orders n facts = some r) : a.IsSolution g r := by
  induction n generalizing facts orders with
  | zero => cases h
  | succ n ih =>
    rw [settleAlong?_succ] at h
    by_cases hc : (a.passAlong g (orders 0) facts).2 = true
    · rw [if_pos hc] at h
      exact ih (fun k => ho (k + 1)) (by rw [size_passAlong, hs]) h
    · rw [if_neg hc] at h
      cases h
      exact isSolution_of_passAlong (ho 0) hs (by simpa using hc)

theorem isSolution_of_settle? {n : Nat} {facts r : Facts φ} (hs : facts.size = g.size)
    (h : a.settle? g n facts = some r) : a.IsSolution g r :=
  isSolution_of_settleAlong? (fun _ => a.covers_order g) hs (settle?_eq_settleAlong? n facts ▸ h)

/-- More passes than needed change nothing. -/
theorem settleAlong?_mono {orders : Nat → List Nat} {n k : Nat} {facts r : Facts φ}
    (h : a.settleAlong? g orders n facts = some r) (hk : n ≤ k) :
    a.settleAlong? g orders k facts = some r := by
  induction n generalizing facts orders k with
  | zero => cases h
  | succ n ih =>
    obtain ⟨k, rfl⟩ : ∃ j, k = j + 1 := ⟨k - 1, by omega⟩
    rw [settleAlong?_succ] at h ⊢
    by_cases hc : (a.passAlong g (orders 0) facts).2 = true
    · rw [if_pos hc] at h ⊢
      exact ih h (by omega)
    · rw [if_neg hc] at h ⊢
      exact h

theorem settle?_mono {n k : Nat} {facts r : Facts φ} (h : a.settle? g n facts = some r)
    (hk : n ≤ k) : a.settle? g k facts = some r := by
  rw [settle?_eq_settleAlong?] at h ⊢
  exact settleAlong?_mono h hk

/-- What every pass keeps holds of what passes settle on. -/
theorem settle?_keeps {Inv : Facts φ → Prop} (hpass : ∀ facts, Inv facts → Inv (a.pass g facts).1)
    {n : Nat} {facts r : Facts φ} (h : a.settle? g n facts = some r) (hinv : Inv facts) :
    Inv r := by
  induction n generalizing facts with
  | zero => cases h
  | succ n ih =>
    rw [settle?_succ] at h
    split at h
    · exact ih h (hpass facts hinv)
    · cases h
      exact hpass facts hinv

/-- Passes settle if every pass that changes something raises a bounded rank of
    the facts. The rank is asked for only where an invariant of passes holds. -/
theorem settle?_of_rank {Inv : Facts φ → Prop} (rank : Facts φ → Nat) {bound : Nat}
    (hpass : ∀ facts, Inv facts → Inv (a.pass g facts).1)
    (hrank : ∀ facts, Inv facts → (a.pass g facts).2 = true →
      rank facts < rank (a.pass g facts).1)
    (hbound : ∀ facts, Inv facts → rank facts ≤ bound) {n : Nat} {facts : Facts φ}
    (hinv : Inv facts) (hn : bound < n + rank facts) : ∃ r, a.settle? g n facts = some r := by
  induction n generalizing facts with
  | zero => exact absurd (hbound facts hinv) (by omega)
  | succ n ih =>
    rw [settle?_succ]
    by_cases hc : (a.pass g facts).2 = true
    · rw [if_pos hc]
      have := hrank facts hinv hc
      exact ih (hpass facts hinv) (by omega)
    · rw [if_neg hc]
      exact ⟨_, rfl⟩

end Passes

end Analysis

/-! ## Monotone analyses -/

/-- The facts around an instruction are ordered on both sides. -/
instance {φ : Type} [PartialOrder φ] : PartialOrder (Point φ) where
  le p q := p.entry ≤ q.entry ∧ p.exit ≤ q.exit
  le_refl p := ⟨le_refl p.entry, le_refl p.exit⟩
  le_trans _ _ _ h h' := ⟨le_trans h.1 h'.1, le_trans h.2 h'.2⟩
  le_antisymm p q h h' := by
    cases p
    cases q
    exact congrArg₂ Point.mk (le_antisymm h.1 h'.1) (le_antisymm h.2 h'.2)

/-- The facts around each instruction lie below others. -/
structure Facts.Below {φ : Type} [PartialOrder φ] (x y : Facts φ) : Prop where
  size_eq : x.size = y.size
  le : ∀ {i : Nat} {p q : Point φ}, x[i]? = some p → y[i]? = some q → p ≤ q

namespace Facts.Below

variable {φ : Type} [PartialOrder φ] {x y z : Facts φ}

theorem refl (x : Facts φ) : Facts.Below x x where
  size_eq := rfl
  le hp hq := by
    rw [hp] at hq
    cases hq
    exact le_refl _

theorem trans (h : Facts.Below x y) (h' : Facts.Below y z) : Facts.Below x z where
  size_eq := h.size_eq.trans h'.size_eq
  le {i p r} hp hr := by
    obtain ⟨hi, _⟩ := Array.getElem?_eq_some_iff.1 hp
    have hq := Array.getElem?_eq_getElem (h.size_eq ▸ hi)
    exact le_trans (h.le hp hq) (h'.le hq hr)

/-- Storing a larger point gives larger facts. -/
theorem setIfInBounds {i : Nat} {p : Point φ} (h : ∀ {q}, x[i]? = some q → q ≤ p) :
    Facts.Below x (x.setIfInBounds i p) where
  size_eq := Array.size_setIfInBounds.symm
  le {j q r} hq hr := by
    rw [Array.getElem?_setIfInBounds] at hr
    split at hr
    next hij =>
      subst hij
      split at hr
      · cases hr
        exact h hq
      · cases hr
    next =>
      rw [hq] at hr
      cases hr
      exact le_refl _

end Facts.Below

namespace Analysis

variable {φ : Type} [PartialOrder φ] {a : Analysis φ} {g : FlowGraph}

/-- Larger facts give larger facts, and passes start from the least one. -/
structure IsMonotone (a : Analysis φ) : Prop where
  transfer_le : ∀ (i : Nat) {x y : φ}, x ≤ y → a.transfer i x ≤ a.transfer i y
  meet_le : ∀ {xs ys : List φ}, List.Forall₂ (· ≤ ·) xs ys → a.meet xs ≤ a.meet ys
  initial_le : ∀ x : φ, a.initial ≤ x

/-- No fact would become smaller if it were recomputed. -/
def Ascending (a : Analysis φ) (g : FlowGraph) (facts : Facts φ) : Prop :=
  Everywhere (fun i p => p ≤ a.recompute g facts i) facts

theorem exitAt_le {x y : Facts φ} (h : Facts.Below x y) (i : Nat) :
    a.exitAt x i ≤ a.exitAt y i := by
  by_cases hi : i < x.size
  · have hx := Array.getElem?_eq_getElem hi
    have hy := Array.getElem?_eq_getElem (h.size_eq ▸ hi)
    rw [exitAt_eq a hx, exitAt_eq a hy]
    exact (h.le hx hy).2
  · have hx : x[i]? = none := Array.getElem?_eq_none (by omega)
    have hy : y[i]? = none := Array.getElem?_eq_none (by rw [← h.size_eq]; omega)
    rw [exitAt, exitAt, hx, hy]

namespace IsMonotone

theorem recompute_le (ha : a.IsMonotone) {x y : Facts φ} (h : Facts.Below x y) (i : Nat) :
    a.recompute g x i ≤ a.recompute g y i := by
  have hm : a.meet ((a.sources g i).map (a.exitAt x)) ≤
      a.meet ((a.sources g i).map (a.exitAt y)) := by
    refine ha.meet_le ?_
    rw [List.forall₂_map_left_iff, List.forall₂_map_right_iff]
    exact List.forall₂_same.2 fun j _ => exitAt_le h j
  exact ⟨hm, ha.transfer_le i hm⟩

/-- The facts that passes start from can only grow. -/
theorem ascending_start (ha : a.IsMonotone) : a.Ascending g (a.start g) :=
  everywhere_start fun _ => ⟨ha.initial_le _, ha.initial_le _⟩

/-- The facts that passes start from lie below every solution. -/
theorem start_below (ha : a.IsMonotone) {r : Facts φ} (hr : a.IsSolution g r) :
    Facts.Below (a.start g) r := by
  refine ⟨by rw [start, Array.size_replicate, hr.size_eq], fun {i p q} hp _ => ?_⟩
  exact everywhere_start (P := fun _ p => p ≤ q)
    (fun _ => ⟨ha.initial_le _, ha.initial_le _⟩) i p hp

variable [DecidableEq φ]

/-- A visit makes facts larger, and they can still only grow. -/
theorem ascending_visit (ha : a.IsMonotone) {state : Facts φ × Bool}
    (h : a.Ascending g state.1) (i : Nat) :
    a.Ascending g (a.visit g state i).1 ∧ Facts.Below state.1 (a.visit g state i).1 := by
  obtain ⟨facts, c⟩ := state
  by_cases hi : facts[i]? = some (a.recompute g facts i)
  · rw [visit_of_solved c hi]
    exact ⟨h, .refl facts⟩
  · rw [visit_of_not_solved c hi]
    have hb : Facts.Below facts (facts.setIfInBounds i (a.recompute g facts i)) :=
      .setIfInBounds (h i _)
    refine ⟨Everywhere.setIfInBounds (fun j p hp => ?_) (ha.recompute_le hb i), hb⟩
    exact le_trans (h j p hp) (ha.recompute_le hb j)

theorem ascending_foldl_visit (ha : a.IsMonotone) (is : List Nat) {state : Facts φ × Bool}
    (h : a.Ascending g state.1) :
    a.Ascending g (is.foldl (a.visit g) state).1 ∧
      Facts.Below state.1 (is.foldl (a.visit g) state).1 := by
  induction is generalizing state with
  | nil => exact ⟨h, .refl _⟩
  | cons i is ih =>
    obtain ⟨h₁, hb₁⟩ := ha.ascending_visit h i
    obtain ⟨h₂, hb₂⟩ := ih h₁
    exact ⟨h₂, hb₁.trans hb₂⟩

/-- A pass makes facts larger, and they can still only grow. -/
theorem ascending_pass (ha : a.IsMonotone) {facts : Facts φ} (h : a.Ascending g facts) :
    a.Ascending g (a.pass g facts).1 ∧ Facts.Below facts (a.pass g facts).1 :=
  ha.ascending_foldl_visit (a.order g) h

/-- Visits do not lead past a solution. -/
theorem foldl_visit_below (ha : a.IsMonotone) {is : List Nat} {state : Facts φ × Bool}
    {r : Facts φ} (hr : a.IsSolution g r) (h : Facts.Below state.1 r) :
    Facts.Below (is.foldl (a.visit g) state).1 r := by
  induction is generalizing state with
  | nil => exact h
  | cons i is ih =>
    obtain ⟨facts, c⟩ := state
    refine ih ?_
    by_cases hi : facts[i]? = some (a.recompute g facts i)
    · rw [visit_of_solved c hi]
      exact h
    · rw [visit_of_not_solved c hi]
      refine ⟨Array.size_setIfInBounds.trans h.size_eq, fun {j p q} hp hq => ?_⟩
      rw [Array.getElem?_setIfInBounds] at hp
      split at hp
      next hij =>
        subst hij
        split at hp
        next hlt =>
          cases hp
          rw [hr.solved i (hr.size_eq ▸ h.size_eq ▸ hlt)] at hq
          cases hq
          exact ha.recompute_le h i
        · cases hp
      next => exact h.le hp hq

/-- What passes settle on lies below every solution above the facts they start
    from. -/
theorem settleAlong?_below (ha : a.IsMonotone) {orders : Nat → List Nat} {n : Nat}
    {facts x r : Facts φ} (h : a.settleAlong? g orders n facts = some x) (hr : a.IsSolution g r)
    (hb : Facts.Below facts r) : Facts.Below x r := by
  induction n generalizing facts orders with
  | zero => cases h
  | succ n ih =>
    have hp : Facts.Below (a.passAlong g (orders 0) facts).1 r := ha.foldl_visit_below hr hb
    rw [settleAlong?_succ] at h
    split at h
    · exact ih h hp
    · cases h
      exact hp

end IsMonotone

end Analysis

end Midend
