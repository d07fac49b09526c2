import Mathlib.Order.Bounds.Defs
import Midend.Proofs.Register.DenseCore

/-!
# The least coloring uses as few colors as any

A dense core for more colors than any node has neighbors is impossible, so with
one color more than the largest degree there is a coloring. That is at most the
number of nodes, and the search for the least coloring, which tries up to as many
colors as there are nodes, ends with one. Only a graph without nodes gets by with
no colors.

* `exists_coloring?_of_degree_lt`: more colors than any node has neighbors do;
* `exists_coloring?_eq_leastColoring`: the search stops at the first number of
  colors for which there is a coloring;
* `leastColoring_uses_least_budget`: what is found is a proper coloring for the
  least number of colors.
-/

namespace Midend.Interference

variable {g : Interference} {k : Nat} {v : String}

/-- The largest number of neighbors of a node, or `0` if there are no nodes. -/
def maxDegree (g : Interference) : Nat := (g.vars.map fun v => (g.neighbors v).size).max?.getD 0

theorem size_neighbors_le_maxDegree (hv : v ∈ g.vars) : (g.neighbors v).size ≤ g.maxDegree :=
  List.le_max?_getD_of_mem (List.mem_map.2 ⟨v, hv, rfl⟩)

/-- A node is no neighbor of itself, so that it has fewer neighbors than there are
    nodes. -/
theorem size_neighbors_lt_size (h : g.Undirected) (hv : v ∈ g.vars) :
    (g.neighbors v).size < g.size := by
  have hle : g.degreeIn (g.vars.erase v) v ≤ (g.vars.erase v).length := List.countP_le_length
  rw [← degreeIn_vars h, g.degreeIn_erase hv, if_neg h.irrefl, Nat.add_zero, size,
    ← List.length_erase_add_one hv]
  exact Nat.lt_succ_of_le hle

theorem card_filter_le_size (core : Finset String) (v : String) :
    (core.filter (· ∈ g.neighbors v)).card ≤ (g.neighbors v).size := by
  have hsub : core.filter (· ∈ g.neighbors v) ⊆ (g.neighbors v).toList.toFinset := by
    intro w hw
    rw [List.mem_toFinset, Std.ExtTreeSet.mem_toList]
    exact (Finset.mem_filter.1 hw).2
  rw [← Std.ExtTreeSet.length_toList]
  exact (Finset.card_le_card hsub).trans (List.toFinset_card_le _)

/-- With more colors than any node has neighbors there is a coloring. -/
theorem exists_coloring?_of_degree_lt (h : g.Undirected)
    (hk : ∀ v ∈ g.vars, (g.neighbors v).size < k) : ∃ c, g.coloring? k = some c := by
  rw [← Option.isSome_iff_exists, coloring?_isSome_iff h]
  intro core hcore
  obtain ⟨v, hv⟩ := hcore.nonempty
  have hle := (hcore.dense v hv).trans (card_filter_le_size core v)
  exact Nat.not_lt.2 hle (hk v (hcore.subset v hv))

/-- Without colors there is no coloring of a graph with nodes. -/
theorem coloring?_zero (h : g.Undirected) (hne : g.vars ≠ []) : g.coloring? 0 = none := by
  obtain ⟨v, hv⟩ := List.exists_mem_of_ne_nil _ hne
  refine (coloring?_eq_none_iff h).2 ⟨g.vars.toFinset, ?_, fun v hv => ?_, fun v _ => ?_⟩
  · exact ⟨v, List.mem_toFinset.2 hv⟩
  · exact List.mem_toFinset.1 hv
  · exact Nat.zero_le _

theorem leastColoring_of_vars_eq_nil (hnil : g.vars = []) :
    g.leastColoring = ⟨0, ∅⟩ ∧ g.coloring? 0 = some ⟨0, ∅⟩ := by
  have hsize : g.size = 0 := by rw [size, hnil, List.length_nil]
  rw [leastColoring, coloring?, hsize]
  exact ⟨rfl, rfl⟩

/-- The least coloring is the coloring for the first number of colors for which
    there is one. -/
theorem exists_coloring?_eq_leastColoring (h : g.Undirected) :
    ∃ k, g.coloring? k = some g.leastColoring ∧ ∀ j < k, g.coloring? j = none := by
  by_cases hvars : g.vars = []
  · obtain ⟨hleast, hzero⟩ := leastColoring_of_vars_eq_nil hvars
    exact ⟨0, hleast ▸ hzero, fun j hj => absurd hj (Nat.not_lt_zero j)⟩
  · have hpos : 0 < g.size := List.length_pos_iff.2 hvars
    cases hf : (List.range' 1 g.size).findSome? g.coloring? with
    | none =>
      -- As many colors as there are nodes are among those tried.
      obtain ⟨c, hc⟩ := exists_coloring?_of_degree_lt h fun v => size_neighbors_lt_size h
      have hmem : g.size ∈ List.range' 1 g.size := List.mem_range'_1.2 ⟨hpos, by omega⟩
      rw [List.findSome?_eq_none_iff.1 hf _ hmem] at hc
      cases hc
    | some c =>
      have hleast : g.leastColoring = c := by rw [leastColoring, hf, Option.getD_some]
      obtain ⟨before, k, after, hsplit, hc, hbefore⟩ := List.findSome?_eq_some_iff.1 hf
      obtain ⟨n, _, rfl, htail⟩ := List.range'_eq_append_iff.1 hsplit
      obtain ⟨rfl, _⟩ := List.range'_eq_cons_iff.1 htail.symm
      rw [Nat.mul_one] at hc
      refine ⟨1 + n, hleast ▸ hc, fun j hj => ?_⟩
      rcases Nat.eq_zero_or_pos j with rfl | hone
      · exact coloring?_zero h hvars
      · exact hbefore j (List.mem_range'_1.2 ⟨hone, hj⟩)

/-- The least coloring is the coloring for its number of colors, and for fewer
    there is none. -/
theorem coloring?_leastColoring (h : g.Undirected) :
    g.coloring? g.leastColoring.k = some g.leastColoring ∧
      ∀ j < g.leastColoring.k, g.coloring? j = none := by
  obtain ⟨k, hk, hless⟩ := exists_coloring?_eq_leastColoring h
  rw [k_of_coloring? hk]
  exact ⟨hk, hless⟩

theorem isLeast_leastColoring (h : g.Undirected) :
    IsLeast {k | (g.coloring? k).isSome} g.leastColoring.k := by
  obtain ⟨hsome, hless⟩ := coloring?_leastColoring h
  refine ⟨Option.isSome_of_eq_some hsome, fun k hk => ?_⟩
  by_contra hlt
  rw [Set.mem_ofPred_eq, hless k (Nat.lt_of_not_le hlt)] at hk
  cases hk

/-- There is a coloring for as many colors as the least one has, and for more. -/
theorem coloring?_isSome_iff_le (h : g.Undirected) :
    (g.coloring? k).isSome ↔ g.leastColoring.k ≤ k := by
  have hleast := isLeast_leastColoring h
  refine ⟨fun hk => hleast.2 hk, fun hle => ?_⟩
  have hsome : (g.coloring? g.leastColoring.k).isSome := hleast.1
  rw [coloring?_isSome_iff h] at hsome ⊢
  exact fun core hcore => hsome core (hcore.mono hle)

/-- The least coloring of a graph that was built is a proper coloring for the
    least number of colors for which there is one, the very one that is found for
    this number. Only a graph without nodes needs no color, and no graph needs more
    than one color more than its largest degree, or more colors than nodes. -/
theorem leastColoring_uses_least_budget (history : List Addition) :
    let g := build history
    let c := g.leastColoring
    c.Proper g ∧ c.isProperFor g ∧
    IsLeast {k | (g.coloring? k).isSome} c.k ∧ g.coloring? c.k = some c ∧
    (c.k = 0 ↔ g.vars = []) ∧
    c.k ≤ g.maxDegree + 1 ∧ c.k ≤ g.size := by
  intro g c
  have h : g.Undirected := undirected_build history
  have hc := (coloring?_leastColoring h).1
  have hleast := isLeast_leastColoring h
  have hproper := proper_of_coloring? h hc
  have hle : ∀ k, (∀ v ∈ g.vars, (g.neighbors v).size < k) → c.k ≤ k := fun k hk =>
    hleast.2 (Option.isSome_iff_exists.2 (exists_coloring?_of_degree_lt h hk))
  refine ⟨hproper, hproper.isProperFor, hleast, hc, ⟨fun hzero => ?_, fun hnil => ?_⟩, ?_, ?_⟩
  · by_contra hne
    have hnone := coloring?_zero h hne
    rw [← hzero, hc] at hnone
    cases hnone
  · exact congrArg Coloring.k (leastColoring_of_vars_eq_nil hnil).1
  · exact hle _ fun v hv => Nat.lt_succ_of_le (size_neighbors_le_maxDegree hv)
  · exact hle _ fun v => size_neighbors_lt_size h

end Midend.Interference
