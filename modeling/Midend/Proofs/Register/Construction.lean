import Midend.Proofs.Register.Interference

/-!
# Graphs are built by additions

An interference graph starts without nodes and grows by nodes, by single edges
and by cliques of edges, in any order and with any repetitions. An edge from a
variable to itself, or to one that is no node at that time, is not added, and the
graph stays as it is. The interference graph of a method is made in this way too.

* `undirected_build`: whatever is added, the graph is undirected;
* `ofLiveness_eq_build`: the additions that make the graph of a method.
-/

namespace Midend

namespace Interference

variable {g g' : Interference}

theorem addEdge?_eq_some_iff {v w : String} :
    g.addEdge? v w = some g' ↔
      (v ≠ w ∧ v ∈ g.vars ∧ w ∈ g.vars) ∧ (g.addNeighbors v [w]).addNeighbors w [v] = g' := by
  rw [addEdge?, Option.ite_none_right_eq_some, Option.some.injEq]

/-- Two variables interfere after an edge was added if they are its ends, or if
    they interfered before. -/
theorem mem_neighbors_of_addEdge? {v w x y : String} (h : g.addEdge? v w = some g') :
    y ∈ g'.neighbors x ↔ (v = x ∧ y = w) ∨ (w = x ∧ y = v) ∨ y ∈ g.neighbors x := by
  obtain ⟨_, rfl⟩ := addEdge?_eq_some_iff.1 h
  simp only [mem_neighbors_addNeighbors, List.mem_singleton]
  exact or_left_comm

theorem vars_of_addEdge? {v w : String} (h : g.addEdge? v w = some g') : g'.vars = g.vars := by
  obtain ⟨_, rfl⟩ := addEdge?_eq_some_iff.1 h
  rw [vars_addNeighbors, vars_addNeighbors]

theorem Undirected.of_addEdge? (h : g.Undirected) {v w : String}
    (hg' : g.addEdge? v w = some g') : g'.Undirected := by
  obtain ⟨⟨hne, hv, hw⟩, _⟩ := addEdge?_eq_some_iff.1 hg'
  refine ⟨?_, fun {x y} hy => ?_, fun {x y} hy => ?_, fun {x} hx => ?_⟩
  · rw [vars_of_addEdge? hg']
    exact h.nodup_vars
  · rw [vars_of_addEdge? hg']
    rcases (mem_neighbors_of_addEdge? hg').1 hy with ⟨_, rfl⟩ | ⟨_, rfl⟩ | hy
    · exact hw
    · exact hv
    · exact h.mem_vars hy
  · refine (mem_neighbors_of_addEdge? hg').2 ?_
    rcases (mem_neighbors_of_addEdge? hg').1 hy with ⟨rfl, rfl⟩ | ⟨rfl, rfl⟩ | hy
    · exact .inr (.inl ⟨rfl, rfl⟩)
    · exact .inl ⟨rfl, rfl⟩
    · exact .inr (.inr (h.symm hy))
  · rcases (mem_neighbors_of_addEdge? hg').1 hx with ⟨rfl, hx⟩ | ⟨rfl, hx⟩ | hx
    · exact hne hx
    · exact hne hx.symm
    · exact h.irrefl hx

end Interference

/-- An addition to a graph. -/
inductive Addition
  /-- A node. -/
  | node (v : String)
  /-- An edge between two nodes. -/
  | edge (v w : String)
  /-- All edges between nodes in a list. -/
  | clique (names : List String)
  deriving DecidableEq, Repr

/-- The graph after an addition. -/
def Addition.perform (g : Interference) : Addition → Interference
  | node v => (g.addNode v).2
  | edge v w => (g.addEdge? v w).getD g
  | clique names => g.addClique names

namespace Interference

/-- The graph that additions make of the empty one. -/
def build (history : List Addition) : Interference := history.foldl Addition.perform {}

theorem Undirected.perform {g : Interference} (h : g.Undirected) (a : Addition) :
    (a.perform g).Undirected := by
  cases a with
  | node v => exact h.addNode v
  | edge v w =>
    rw [Addition.perform]
    cases hg' : g.addEdge? v w with
    | none => exact h
    | some g' => exact h.of_addEdge? hg'
  | clique names => exact h.addClique names

/-- What is built is undirected. -/
theorem undirected_build (history : List Addition) : (build history).Undirected := by
  suffices h : ∀ g : Interference, g.Undirected →
      (history.foldl Addition.perform g).Undirected from h {} .empty
  induction history with
  | nil => exact fun _ h => h
  | cons a history ih => exact fun g h => ih _ (h.perform a)

/-! ## The graph of a method -/

/-- The additions for a method: its locals, and two cliques for each instruction. -/
def additions (m : Method) (live : Liveness) : List Addition :=
  m.locals.map .node ++ (List.range live.size).flatMap fun i =>
    [.clique (live.liveIn i).toList, .clique ((live.defs i).toList ++ (live.liveOut i).toList)]

theorem ofLiveness_eq_build (m : Method) (live : Liveness) :
    ofLiveness m live = build (additions m live) := by
  rw [ofLiveness, build, additions, List.foldl_append, List.foldl_map, List.foldl_flatMap]
  rfl

theorem undirected_ofLiveness (m : Method) (live : Liveness) : (ofLiveness m live).Undirected := by
  rw [ofLiveness_eq_build]
  exact undirected_build _

end Interference

end Midend
