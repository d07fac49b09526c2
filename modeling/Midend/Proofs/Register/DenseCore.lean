import Mathlib.Data.Finset.Card
import Midend.Proofs.Register.Simplification

/-!
# Simplification gets stuck on dense cores

A *dense core* of a graph for `k` colors is a non-empty set of nodes, each with
at least `k` neighbors in the set. The nodes that are left when a simplification
is stuck are one. Conversely no simplification empties a graph with a dense core:
of its nodes, the one removed first would still have all its neighbors in the
core, too many of them. So whether there is a coloring does not depend on the
order of removals, and with it on the order of the nodes.

* `Reached.denseCore`: a stuck simplification leaves a dense core;
* `Peels.exists_card_lt`: no set of nodes that are all removed is one;
* `coloring?_eq_none_iff`: there is no coloring exactly if there is a dense core.
-/

namespace Midend.Interference

variable {g : Interference} {k : Nat}

/-- A non-empty set of nodes, each with at least `k` neighbors in the set. -/
structure DenseCore (g : Interference) (k : Nat) (core : Finset String) : Prop where
  nonempty : core.Nonempty
  subset : ∀ v ∈ core, v ∈ g.vars
  dense : ∀ v ∈ core, k ≤ (core.filter (· ∈ g.neighbors v)).card

/-! ## What is left when a simplification is stuck -/

/-- A simplification that does not remove all nodes gets to a state in which no
    node can be removed. -/
theorem exists_stuck (h : g.Undirected) {n : Nat} {s : Simplification} (hs : g.Reached k s)
    (hn : s.left.length = n) (hnone : g.simplify? k n s = none) :
    ∃ t, g.Reached k t ∧ t.left ≠ [] ∧ removable? t k = none := by
  induction n generalizing s with
  | zero => cases hnone
  | succ n ih =>
    cases hv : removable? s k with
    | none => exact ⟨s, hs, List.ne_nil_of_length_eq_add_one hn, hv⟩
    | some v =>
      have hmem := (removable?_eq_some (hs.counted h) hv).1
      refine ih (hs.remove hv) (length_left_remove hmem hn) ?_
      cases hrest : g.simplify? k n (g.remove s v) with
      | none => rfl
      | some rest => simp [simplify?, hv, hrest] at hnone

theorem card_filter_toFinset {vs : List String} (hvs : vs.Nodup) (v : String) :
    (vs.toFinset.filter (· ∈ g.neighbors v)).card = g.degreeIn vs v := by
  have hfilter : vs.toFinset.filter (· ∈ g.neighbors v) =
      (vs.filter (· ∈ g.neighbors v)).toFinset := by
    ext w
    simp
  rw [hfilter, List.toFinset_card_of_nodup (hvs.filter _), degreeIn, List.countP_eq_length_filter]

theorem Reached.denseCore (h : g.Undirected) {s : Simplification} (hs : g.Reached k s)
    (hleft : s.left ≠ []) (hnone : removable? s k = none) : g.DenseCore k s.left.toFinset := by
  have hcounted := hs.counted h
  refine ⟨?_, fun v hv => ?_, fun v hv => ?_⟩
  · obtain ⟨v, hv⟩ := List.exists_mem_of_ne_nil _ hleft
    exact ⟨v, List.mem_toFinset.2 hv⟩
  · exact hcounted.subset (List.mem_toFinset.1 hv)
  · rw [List.mem_toFinset] at hv
    have hd := List.find?_eq_none.1 hnone v hv
    rw [hcounted.degree v (hcounted.subset hv), Option.any_some, decide_eq_true_eq] at hd
    rw [card_filter_toFinset hcounted.nodup]
    exact Nat.le_of_not_lt hd

/-! ## What no simplification removes -/

/-- When nodes are removed in an order in which each has fewer than `k` neighbors
    after it, each non-empty set of them has a node with fewer than `k` neighbors
    in the set: the one that is removed first. -/
theorem Peels.exists_card_lt {vs : List String} (hp : g.Peels k vs) (h : g.Undirected)
    {core : Finset String} (hne : core.Nonempty) (hsub : ∀ v ∈ core, v ∈ vs) :
    ∃ v ∈ core, (core.filter (· ∈ g.neighbors v)).card < k := by
  induction vs with
  | nil =>
    obtain ⟨v, hv⟩ := hne
    exact absurd (hsub v hv) List.not_mem_nil
  | cons v vs ih =>
    by_cases hv : v ∈ core
    · refine ⟨v, hv, Nat.lt_of_le_of_lt ?_ hp.1⟩
      -- All other nodes of the set are still there.
      have hafter : core.filter (· ∈ g.neighbors v) ⊆ (vs.filter (· ∈ g.neighbors v)).toFinset := by
        intro w hw
        obtain ⟨hw, hn⟩ := Finset.mem_filter.1 hw
        rcases List.mem_cons.1 (hsub w hw) with rfl | hw
        · exact absurd hn h.irrefl
        · exact List.mem_toFinset.2 (List.mem_filter.2 ⟨hw, decide_eq_true hn⟩)
      rw [degreeIn, List.countP_eq_length_filter]
      exact (Finset.card_le_card hafter).trans (List.toFinset_card_le _)
    · refine ih hp.2 fun w hw => ?_
      rcases List.mem_cons.1 (hsub w hw) with rfl | hw'
      · exact absurd hw hv
      · exact hw'

/-- There is no coloring with `k` colors exactly if there is a dense core. -/
theorem coloring?_eq_none_iff (h : g.Undirected) :
    g.coloring? k = none ↔ ∃ core, g.DenseCore k core := by
  constructor
  · intro hnone
    have hstuck : g.simplify? k g.size g.whole = none := by
      by_contra hne
      obtain ⟨removed, hr⟩ := Option.ne_none_iff_exists'.1 hne
      obtain ⟨_, _, hc⟩ := coloring?_of_simplify? h hr
      rw [hc] at hnone
      cases hnone
    obtain ⟨s, hs, hleft, hno⟩ := exists_stuck h .whole rfl hstuck
    exact ⟨_, hs.denseCore h hleft hno⟩
  · rintro ⟨core, hcore⟩
    by_contra hne
    obtain ⟨c, hc⟩ := Option.ne_none_iff_exists'.1 hne
    obtain ⟨removed, hr, _⟩ := coloring?_eq_some_iff.1 hc
    obtain ⟨hperm, hp⟩ := peels_of_simplify? h (counted_whole h) rfl hr
    obtain ⟨v, hv, hlt⟩ := hp.exists_card_lt h hcore.nonempty fun v hv =>
      hperm.mem_iff.2 (hcore.subset v hv)
    exact Nat.not_lt.2 (hcore.dense v hv) hlt

theorem coloring?_isSome_iff (h : g.Undirected) :
    (g.coloring? k).isSome ↔ ∀ core, ¬ g.DenseCore k core := by
  rw [Option.isSome_iff_ne_none, ne_eq, coloring?_eq_none_iff h, not_exists]

theorem DenseCore.mono {core : Finset String} {j : Nat} (hcore : g.DenseCore k core)
    (hjk : j ≤ k) : g.DenseCore j core :=
  ⟨hcore.nonempty, hcore.subset, fun v hv => hjk.trans (hcore.dense v hv)⟩

theorem DenseCore.of_edges {g' : Interference} {core : Finset String}
    (hcore : g.DenseCore k core) (hvars : ∀ v, v ∈ g.vars → v ∈ g'.vars)
    (hedges : ∀ v w, g.hasEdge v w → g'.hasEdge v w) : g'.DenseCore k core := by
  refine ⟨hcore.nonempty, fun v hv => hvars v (hcore.subset v hv), fun v hv => ?_⟩
  refine (hcore.dense v hv).trans (Finset.card_le_card fun w hw => ?_)
  rw [Finset.mem_filter] at hw ⊢
  exact ⟨hw.1, hasEdge_iff.1 (hedges v w (hasEdge_iff.2 hw.2))⟩

/-- A graph that was built has no coloring with `k` colors exactly if it has a
    dense core. So only its nodes and edges count, and not the order in which they
    were added, and more colors are as good as fewer. -/
theorem coloring_fails_exactly_on_dense_cores (history : List Addition) (k : Nat) :
    let g := build history
    (g.coloring? k = none ↔ ∃ core, g.DenseCore k core) ∧
    (∀ history', (∀ v, v ∈ g.vars ↔ v ∈ (build history').vars) →
      (∀ v w, g.hasEdge v w ↔ (build history').hasEdge v w) →
      (g.coloring? k).isSome = ((build history').coloring? k).isSome) ∧
    ∀ k', k ≤ k' → (g.coloring? k).isSome → (g.coloring? k').isSome := by
  intro g
  have h : g.Undirected := undirected_build history
  refine ⟨coloring?_eq_none_iff h, fun history' hvars hedges => ?_, fun k' hk hsome => ?_⟩
  · have h' : (build history').Undirected := undirected_build history'
    rw [Bool.eq_iff_iff, coloring?_isSome_iff h, coloring?_isSome_iff h']
    refine forall_congr' fun core => not_congr ⟨fun hcore => ?_, fun hcore => ?_⟩
    · exact hcore.of_edges (fun v => (hvars v).1) fun v w => (hedges v w).1
    · exact hcore.of_edges (fun v => (hvars v).2) fun v w => (hedges v w).2
  · rw [coloring?_isSome_iff h] at hsome ⊢
    exact fun core hcore => hsome core (hcore.mono hk)

/-- A cycle of four nodes. -/
def square : List Addition :=
  [.node "a", .node "b", .node "c", .node "d", .edge "a" "b", .edge "b" "c", .edge "c" "d",
    .edge "d" "a"]

/-- The same cycle, its nodes added in another order. -/
def squareFromMiddle : List Addition :=
  [.node "c", .node "b", .clique ["b", "c"], .node "a", .node "d", .edge "a" "b", .edge "d" "c",
    .clique ["d", "a"]]

/-- Two colors would do for the square, but simplification needs three. -/
theorem coloring_fails_exactly_on_dense_cores_square :
    (build square).coloring? 2 = none ∧ ((build squareFromMiddle).coloring? 2).isSome = false ∧
      ((build square).coloring? 4).isSome := by
  obtain ⟨hnone, horder, _⟩ := coloring_fails_exactly_on_dense_cores square 2
  obtain ⟨_, _, hmore⟩ := coloring_fails_exactly_on_dense_cores square 3
  have hcore : (build square).DenseCore 2 {"a", "b", "c", "d"} :=
    ⟨by decide, by decide +kernel, by decide +kernel⟩
  have hperm : (build square).vars.Perm (build squareFromMiddle).vars := by decide +kernel
  have hadjacent : (build square).adjacent = (build squareFromMiddle).adjacent := by
    decide +kernel
  have hsome := horder squareFromMiddle (fun _ => hperm.mem_iff) fun v w => by
    rw [hasEdge_iff, hasEdge_iff, neighbors, neighbors, hadjacent]
  have htwo := hnone.2 ⟨_, hcore⟩
  rw [htwo] at hsome
  exact ⟨htwo, hsome.symm, hmore 4 (by decide) (by decide +kernel)⟩

end Midend.Interference
