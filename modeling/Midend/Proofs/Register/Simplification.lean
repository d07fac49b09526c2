import Midend.Proofs.Register.Coloring
import Midend.Proofs.Register.Construction

/-!
# Simplification counts right, and selection finds colors

A simplification starts from the whole graph and removes the first node with
fewer than `k` neighbors left, again and again. In every state on the way the
counters are right, those of removed nodes included. So the counters of all
neighbors of a node to be removed are positive, and counting it off takes none of
them below zero. When no node is left, selection finds a color for each one, and
the coloring is proper.

* `Reached.counted`: the counters are right in every state;
* `Counted.countOff?_eq_some`: they are never counted below zero;
* `simplification_yields_proper_colorings`: what is found is a proper coloring,
  and it is found whenever the graph is emptied.
-/

namespace Midend

namespace Interference

variable {g : Interference} {k : Nat} {s : Simplification} {v : String}

/-- The states of a simplification with `k` colors. -/
inductive Reached (g : Interference) (k : Nat) : Simplification → Prop
  | whole : Reached g k g.whole
  | remove {s : Simplification} {v : String} :
    Reached g k s → removable? s k = some v → Reached g k (g.remove s v)

theorem Reached.counted (h : g.Undirected) (hs : g.Reached k s) : g.Counted s := by
  induction hs with
  | whole => exact counted_whole h
  | remove _ hv ih => exact ih.remove h (removable?_eq_some ih hv).1

/-- Takes one from the counter of each variable in a list, if all of them have a
    counter and none is at zero when its turn comes. -/
def countOff? (degree : Std.ExtTreeMap String Nat) :
    List String → Option (Std.ExtTreeMap String Nat)
  | [] => some degree
  | w :: ws =>
    if degree[w]?.any (0 < ·) then countOff? (degree.modify w (· - 1)) ws else none

theorem countOff?_eq_foldl {degree : Std.ExtTreeMap String Nat} {ws : List String}
    (hws : ws.Nodup) (hpos : ∀ w ∈ ws, ∃ d, degree[w]? = some (d + 1)) :
    countOff? degree ws = some (ws.foldl (fun d w => d.modify w (· - 1)) degree) := by
  induction ws generalizing degree with
  | nil => rfl
  | cons w ws ih =>
    rw [List.nodup_cons] at hws
    obtain ⟨d, hd⟩ := hpos w List.mem_cons_self
    rw [countOff?, if_pos (by simp [hd]), List.foldl_cons]
    refine ih hws.2 fun x hx => ?_
    -- The counters of the others are as before.
    have hne : compare w x ≠ .eq := by
      rw [ne_eq, Std.compare_eq_iff_eq]
      rintro rfl
      exact hws.1 hx
    rw [Std.ExtTreeMap.getElem?_modify, if_neg hne]
    exact hpos x (List.mem_cons_of_mem _ hx)

/-- A neighbor of a node that is left has a neighbor left. -/
theorem Counted.exists_degree_eq_succ (h : g.Undirected) (hs : g.Counted s) (hv : v ∈ s.left)
    {w : String} (hw : w ∈ g.neighbors v) : ∃ d, s.degree[w]? = some (d + 1) := by
  refine ⟨g.degreeIn (s.left.erase v) w, ?_⟩
  rw [hs.degree w (h.mem_vars hw), g.degreeIn_erase hv w, if_pos (h.symm hw)]

/-- Counting a node off at its neighbors takes no counter below zero. -/
theorem Counted.countOff?_eq_some (h : g.Undirected) (hs : g.Counted s) (hv : v ∈ s.left) :
    countOff? s.degree (g.neighbors v).toList = some (g.remove s v).degree :=
  countOff?_eq_foldl (g.neighbors v).nodup_toList fun _ hw =>
    hs.exists_degree_eq_succ h hv (Std.ExtTreeSet.mem_toList.1 hw)

end Interference

theorem Coloring.Proper.isProperFor {c : Coloring} {g : Interference} (hc : c.Proper g) :
    c.isProperFor g := by
  rw [Coloring.isProperFor, List.all_eq_true]
  intro v hv
  obtain ⟨x, hx⟩ := hc.exists_color hv
  rw [hx, Option.any_some, Bool.and_eq_true, decide_eq_true_eq, List.all_eq_true]
  refine ⟨hc.lt hx, fun w hw => ?_⟩
  exact decide_eq_true (hc.ne (Interference.mem_neighborList.1 hw).2 hx)

namespace Interference

variable {g : Interference} {k : Nat}

/-- In the simplification of a graph that was built, no counter is ever counted
    below zero. Whenever it empties the graph, selection finds a color for every
    node. And what is found as a coloring with `k` colors colors the nodes and
    nothing else, with colors below `k`, and never both ends of an edge alike. -/
theorem simplification_yields_proper_colorings (history : List Addition) (k : Nat) :
    let g := build history
    (∀ s v, g.Reached k s → removable? s k = some v →
      countOff? s.degree (g.neighbors v).toList = some (g.remove s v).degree) ∧
    (∀ removed, g.simplify? k g.size g.whole = some removed →
      ∃ colors, g.select? k removed = some colors ∧ g.coloring? k = some ⟨k, colors⟩) ∧
    ∀ c, g.coloring? k = some c →
      (∀ v, v ∈ c.colors ↔ v ∈ g.vars) ∧
      (∀ (v : String) x, c.colors[v]? = some x → x < k) ∧
      (∀ v w, g.hasEdge v w → c.colors[v]? ≠ c.colors[w]?) ∧
      c.k = k ∧ c.isProperFor g := by
  intro g
  have h : g.Undirected := undirected_build history
  refine ⟨fun s v hs hv => ?_, fun removed hr => ?_, fun c hc => ?_⟩
  · have hcounted := hs.counted h
    exact hcounted.countOff?_eq_some h (removable?_eq_some hcounted hv).1
  · exact coloring?_of_simplify? h hr
  · have hproper := proper_of_coloring? h hc
    have hk := k_of_coloring? hc
    refine ⟨hproper.mem_iff, fun _ _ hx => hk ▸ hproper.lt hx, fun v w hvw => ?_, hk,
      hproper.isProperFor⟩
    rw [hasEdge_iff] at hvw
    obtain ⟨x, hx⟩ := hproper.exists_color (h.mem_vars (h.symm hvw))
    rw [hx]
    exact (hproper.ne hvw hx).symm

/-- A cycle of five nodes. -/
def pentagon : List Addition :=
  [.node "a", .node "b", .node "c", .node "d", .node "e", .edge "a" "b", .edge "b" "c",
    .edge "c" "d", .edge "d" "e", .edge "e" "a"]

theorem simplification_yields_proper_colorings_pentagon :
    let g := build pentagon
    g.simplify? 3 g.size g.whole = some ["a", "b", "c", "d", "e"] ∧
      ∃ c, g.coloring? 3 = some c ∧ c.isProperFor g ∧ c.colors["e"]? ≠ c.colors["a"]? := by
  have hs : (build pentagon).simplify? 3 (build pentagon).size (build pentagon).whole =
      some ["a", "b", "c", "d", "e"] := by decide +kernel
  obtain ⟨_, hselect, hproper⟩ := simplification_yields_proper_colorings pentagon 3
  obtain ⟨colors, _, hc⟩ := hselect _ hs
  obtain ⟨_, _, hne, _, hvalid⟩ := hproper _ hc
  exact ⟨hs, _, hc, hvalid, hne "e" "a" (by decide +kernel)⟩

end Interference

end Midend
