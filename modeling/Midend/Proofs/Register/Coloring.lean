import Mathlib.Data.List.Nodup
import Mathlib.Data.List.Perm.Subperm
import Midend.Proofs.Register.Interference
import Midend.Register.Coloring

/-!
# Colorings are proper

In the course of a simplification the counter of a node that is left is the
number of its neighbors that are left (`Counted`). A node is removed when that
number is below `k`, and so the nodes are removed in an order in which each has
fewer than `k` neighbors after it (`Peels`). Selecting colors in the reverse of
such an order never runs out of colors, and gives neighbors different ones.

* `Peels.select?_eq_some`: colors are found for every such order;
* `Coloring.Proper`, `proper_of_coloring?`: what a coloring is.
-/

namespace Midend

namespace Interference

variable {g : Interference} {k : Nat}

/-! ## Simplification -/

/-- The number of neighbors of a node in a list. -/
def degreeIn (g : Interference) (vs : List String) (v : String) : Nat :=
  vs.countP (· ∈ g.neighbors v)

/-- The nodes that are left do not repeat, and the counters are right. -/
structure Counted (g : Interference) (s : Simplification) : Prop where
  nodup : s.left.Nodup
  subset : s.left ⊆ g.vars
  degree : ∀ v ∈ g.vars, s.degree[v]? = some (g.degreeIn s.left v)

/-- Each node of the list has fewer than `k` neighbors among those after it. -/
def Peels (g : Interference) (k : Nat) : List String → Prop
  | [] => True
  | v :: vs => g.degreeIn vs v < k ∧ g.Peels k vs

theorem degreeIn_vars (h : g.Undirected) (v : String) :
    g.degreeIn g.vars v = (g.neighbors v).size := by
  have hp : (g.vars.filter (· ∈ g.neighbors v)).Perm (g.neighbors v).toList := by
    refine (List.perm_ext_iff_of_nodup (h.nodup_vars.filter _) ?_).2 fun w => ?_
    · exact (g.neighbors v).nodup_toList
    · simp only [List.mem_filter, decide_eq_true_eq, Std.ExtTreeSet.mem_toList]
      exact ⟨And.right, fun hw => ⟨h.mem_vars hw, hw⟩⟩
  rw [degreeIn, List.countP_eq_length_filter, hp.length_eq, Std.ExtTreeSet.length_toList]

theorem degreeIn_erase (g : Interference) {vs : List String} {v : String} (hv : v ∈ vs)
    (w : String) :
    g.degreeIn vs w = g.degreeIn (vs.erase v) w + if v ∈ g.neighbors w then 1 else 0 := by
  rw [degreeIn, (List.perm_cons_erase hv).countP_eq, List.countP_cons]
  simp [degreeIn]

theorem counted_whole (h : g.Undirected) : g.Counted g.whole where
  nodup := h.nodup_vars
  subset := List.Subset.refl _
  degree v hv := by
    rw [whole, degreeIn_vars h]
    refine Std.ExtTreeMap.getElem?_ofList_of_mem (k := v) (by simp) ?_
      (List.mem_map.2 ⟨v, hv, rfl⟩)
    rw [List.pairwise_map]
    exact h.nodup_vars.imp fun hne he => hne (by simpa using he)

theorem getElem?_foldl_modify (ws : List String) (hws : ws.Nodup)
    (d : Std.ExtTreeMap String Nat) (v : String) :
    (ws.foldl (fun d w => d.modify w (· - 1)) d)[v]? =
      if v ∈ ws then d[v]?.map (· - 1) else d[v]? := by
  induction ws generalizing d with
  | nil => simp
  | cons w ws ih =>
    rw [List.nodup_cons] at hws
    rw [List.foldl_cons, ih hws.2, Std.ExtTreeMap.getElem?_modify]
    by_cases hv : v = w
    · subst hv
      simp [hws.1]
    · have hne : compare w v ≠ .eq := by simpa using Ne.symm hv
      simp [hne, hv]

/-- The counters stay right when a node is removed: each of its neighbors has it
    among those left, and counts it off. -/
theorem Counted.remove (h : g.Undirected) {s : Simplification} (hs : g.Counted s) {v : String}
    (hv : v ∈ s.left) : g.Counted (g.remove s v) where
  nodup := hs.nodup.erase v
  subset := fun w hw => hs.subset (List.mem_of_mem_erase hw)
  degree w hw := by
    have hleft := g.degreeIn_erase hv w
    rw [Interference.remove, getElem?_foldl_modify _ (g.neighbors v).nodup_toList,
      hs.degree w hw, hleft]
    by_cases hn : w ∈ g.neighbors v
    · simp [hn, h.symm hn]
    · have hn' : v ∉ g.neighbors w := fun hn' => hn (h.symm hn')
      simp [hn, hn']

theorem removable?_eq_some {s : Simplification} (hs : g.Counted s) {v : String}
    (h : removable? s k = some v) : v ∈ s.left ∧ g.degreeIn s.left v < k := by
  have hv := List.mem_of_find?_eq_some h
  have hd := List.find?_some h
  rw [hs.degree v (hs.subset hv)] at hd
  exact ⟨hv, by simpa using hd⟩

theorem length_left_remove {s : Simplification} {v : String} {n : Nat} (hv : v ∈ s.left)
    (hn : s.left.length = n + 1) : (g.remove s v).left.length = n := by
  rw [remove, List.length_erase_of_mem hv, hn, Nat.add_sub_cancel]

/-- Simplification removes nodes in an order in which each has fewer than `k`
    neighbors after it. -/
theorem peels_of_simplify? (h : g.Undirected) {n : Nat} {s : Simplification} {vs : List String}
    (hs : g.Counted s) (hn : s.left.length = n) (hvs : g.simplify? k n s = some vs) :
    vs.Perm s.left ∧ g.Peels k vs := by
  induction n generalizing s vs with
  | zero =>
    cases hvs
    rw [List.length_eq_zero_iff.1 hn]
    exact ⟨.nil, trivial⟩
  | succ n ih =>
    simp only [simplify?, Option.bind_eq_bind, Option.bind_eq_some_iff] at hvs
    obtain ⟨v, hv, rest, hrest, hvs⟩ := hvs
    cases hvs
    obtain ⟨hv, hk⟩ := removable?_eq_some hs hv
    obtain ⟨hp, hpeels⟩ := ih (hs.remove h hv) (length_left_remove hv hn) hrest
    refine ⟨(hp.cons v).trans (List.perm_cons_erase hv).symm, ?_, hpeels⟩
    rw [g.degreeIn_erase hv v] at hk
    rw [degreeIn, hp.countP_eq]
    exact Nat.lt_of_le_of_lt (Nat.le_add_right _ _) hk

/-! ## Selection -/

theorem mem_neighborList {v w : String} :
    w ∈ g.neighborList v ↔ w ∈ g.vars ∧ w ∈ g.neighbors v := by
  rw [neighborList, List.mem_filter, decide_eq_true_eq]

/-- The least free color is below `k`, and no neighbor has it. -/
theorem leastFree?_eq_some {taken : List Nat} {c : Nat} (h : leastFree? k taken = some c) :
    c < k ∧ c ∉ taken := by
  have hmem := List.mem_of_find?_eq_some h
  have hfree := List.find?_some h
  rw [List.mem_range] at hmem
  exact ⟨by omega, by simpa using hfree⟩

/-- There is a free color when fewer than `k` are taken. -/
theorem exists_leastFree? {taken : List Nat} (h : taken.length < k) :
    ∃ c, leastFree? k taken = some c := by
  rw [← Option.isSome_iff_exists, leastFree?, List.find?_isSome, Nat.min_eq_right h]
  by_contra hall
  -- Otherwise all of one color more than there are taken would be taken.
  have hsub : List.range (taken.length + 1) ⊆ taken := by
    intro c hc
    by_contra hfree
    exact hall ⟨c, hc, by simpa using hfree⟩
  have hlen := (List.nodup_range.subperm hsub).length_le
  rw [List.length_range] at hlen
  omega

/-- What selection from a list of nodes gives. -/
structure Selected (g : Interference) (k : Nat) (vs : List String)
    (colors : Std.ExtTreeMap String Nat) : Prop where
  mem_iff : ∀ v, v ∈ colors ↔ v ∈ vs
  lt : ∀ {v : String} {c : Nat}, colors[v]? = some c → c < k
  ne : ∀ {v w : String} {c : Nat}, w ∈ g.neighbors v → colors[v]? = some c → colors[w]? ≠ some c

theorem Selected.empty : g.Selected k [] ∅ where
  mem_iff := by simp
  lt h := by simp at h
  ne _ h := by simp at h

theorem Selected.insert (h : g.Undirected) {vs : List String} {colors : Std.ExtTreeMap String Nat}
    (hs : g.Selected k vs colors) {v : String} {c : Nat}
    (hc : leastFree? k ((g.neighborList v).filterMap (colors[·]?)) = some c) :
    g.Selected k (v :: vs) (colors.insert v c) := by
  obtain ⟨hlt, hfree⟩ := leastFree?_eq_some hc
  have hne : ∀ w, w ∈ g.neighbors v → colors[w]? ≠ some c := fun w hw hwc =>
    hfree (List.mem_filterMap.2 ⟨w, mem_neighborList.2 ⟨h.mem_vars hw, hw⟩, hwc⟩)
  have hget : ∀ w, (colors.insert v c)[w]? = if v = w then some c else colors[w]? := by
    intro w
    rw [Std.ExtTreeMap.getElem?_insert]
    simp
  refine ⟨fun w => ?_, fun {w d} hd => ?_, fun {x y d} hxy hx hy => ?_⟩
  · rw [Std.ExtTreeMap.mem_insert, hs.mem_iff, List.mem_cons, Std.compare_eq_iff_eq, eq_comm]
  · rw [hget] at hd
    split at hd
    · cases hd
      exact hlt
    · exact hs.lt hd
  · rw [hget] at hx hy
    split at hx
    next hvx =>
      subst hvx
      cases hx
      rw [if_neg fun hvy => h.irrefl (hvy ▸ hxy)] at hy
      exact hne y hxy hy
    next =>
      split at hy
      next hvy =>
        subst hvy
        cases hy
        exact hne x (h.symm hxy) hx
      next => exact hs.ne hxy hx hy

theorem selected_of_select? (h : g.Undirected) {vs : List String}
    {colors : Std.ExtTreeMap String Nat} (hs : g.select? k vs = some colors) :
    g.Selected k vs colors := by
  induction vs generalizing colors with
  | nil =>
    cases hs
    exact .empty
  | cons v vs ih =>
    simp only [select?, Option.bind_eq_bind, Option.bind_eq_some_iff] at hs
    obtain ⟨colors', hcolors, c, hc, hs⟩ := hs
    cases hs
    exact (ih hcolors).insert h hc

/-- Selection never runs out of colors: fewer than `k` neighbors of a node have
    one when its turn comes. -/
theorem Peels.select?_eq_some (h : g.Undirected) {vs : List String} (hp : g.Peels k vs) :
    ∃ colors, g.select? k vs = some colors := by
  induction vs with
  | nil => exact ⟨∅, rfl⟩
  | cons v vs ih =>
    obtain ⟨colors, hcolors⟩ := ih hp.2
    obtain ⟨c, hc⟩ : ∃ c, leastFree? k ((g.neighborList v).filterMap (colors[·]?)) = some c := by
      refine exists_leastFree? (Nat.lt_of_le_of_lt ?_ hp.1)
      -- The neighbors that have a color are among the nodes colored so far.
      rw [List.length_filterMap_eq_countP, List.countP_eq_length_filter, degreeIn,
        List.countP_eq_length_filter]
      refine (((h.nodup_vars.filter _).filter _).subperm fun w hw => ?_).length_le
      simp only [List.mem_filter, decide_eq_true_eq] at hw ⊢
      have hw' : w ∈ colors := Std.ExtTreeMap.mem_iff_isSome_getElem?.2 hw.2
      exact ⟨((selected_of_select? h hcolors).mem_iff w).1 hw', hw.1.2⟩
    exact ⟨colors.insert v c, by simp [select?, hcolors, hc]⟩

end Interference

/-- The coloring gives each node of the graph, and no other variable, a color
    below `k`, and neighbors different ones. -/
structure Coloring.Proper (c : Coloring) (g : Interference) : Prop where
  mem_iff : ∀ v, v ∈ c.colors ↔ v ∈ g.vars
  lt : ∀ {v : String} {x : Nat}, c.colors[v]? = some x → x < c.k
  ne : ∀ {v w : String} {x : Nat}, w ∈ g.neighbors v → c.colors[v]? = some x →
    c.colors[w]? ≠ some x

namespace Coloring.Proper

variable {c : Coloring} {g : Interference} {v : String}

theorem exists_color (hc : c.Proper g) (hv : v ∈ g.vars) : ∃ x, c.colors[v]? = some x :=
  Option.isSome_iff_exists.1 (Std.ExtTreeMap.mem_iff_isSome_getElem?.1 ((hc.mem_iff v).2 hv))

theorem mem_vars (hc : c.Proper g) {x : Nat} (hx : c.colors[v]? = some x) : v ∈ g.vars :=
  (hc.mem_iff v).1 (Std.ExtTreeMap.mem_iff_isSome_getElem?.2 (Option.isSome_of_eq_some hx))

end Coloring.Proper

namespace Interference

variable {g : Interference} {k : Nat}

theorem coloring?_eq_some_iff {c : Coloring} :
    g.coloring? k = some c ↔
      ∃ removed, g.simplify? k g.size g.whole = some removed ∧
        ∃ colors, g.select? k removed = some colors ∧ ⟨k, colors⟩ = c := by
  simp [coloring?, Option.bind_eq_some_iff]

theorem k_of_coloring? {c : Coloring} (hc : g.coloring? k = some c) : c.k = k := by
  obtain ⟨_, _, _, _, rfl⟩ := coloring?_eq_some_iff.1 hc
  rfl

/-- What is found as a coloring is one. -/
theorem proper_of_coloring? (h : g.Undirected) {c : Coloring} (hc : g.coloring? k = some c) :
    c.Proper g := by
  obtain ⟨removed, hr, colors, hcolors, rfl⟩ := coloring?_eq_some_iff.1 hc
  obtain ⟨hp, _⟩ := peels_of_simplify? h (counted_whole h) rfl hr
  have hsel := selected_of_select? h hcolors
  exact ⟨fun v => (hsel.mem_iff v).trans hp.mem_iff, hsel.lt, hsel.ne⟩

/-- When simplification empties the graph, selection finds a coloring. -/
theorem coloring?_of_simplify? (h : g.Undirected) {removed : List String}
    (hr : g.simplify? k g.size g.whole = some removed) :
    ∃ colors, g.select? k removed = some colors ∧ g.coloring? k = some ⟨k, colors⟩ := by
  obtain ⟨_, hp⟩ := peels_of_simplify? h (counted_whole h) rfl hr
  obtain ⟨colors, hcolors⟩ := hp.select?_eq_some h
  exact ⟨colors, hcolors, coloring?_eq_some_iff.2 ⟨removed, hr, colors, hcolors, rfl⟩⟩

end Interference

end Midend
