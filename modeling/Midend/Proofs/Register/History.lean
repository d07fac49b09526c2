import Midend.Proofs.Register.Numbering

/-!
# Graphs remember their additions

What a graph is can be told from the additions that made it. Its nodes are the names
that were added, in the order of their first addition; later additions come after
them, so that a node stays at its place. Two names are joined by an edge if some
addition asked for it at a time when both were nodes. An edge that was asked for too
early is not made up for when its ends become nodes, and no edge is lost. All of it
is the same when the graph is kept in tables, and the number that a node has there is
the one that its addition gave, and gives again.

* `vars_build`, `getElem?_vars_build`: the nodes and their places;
* `index_build`, `addNode_again`: their numbers;
* `mem_neighbors_perform`, `mem_neighbors_build`: the edges, by one addition and by
  all of them;
* `graph_remembers_additions`: all of it, for any additions.
-/

namespace Midend

namespace Addition

/-- The name that is added as a node. -/
def node? : Addition → Option String
  | node v => some v
  | _ => none

/-- The addition asks for an edge between the names. -/
def Joins (v w : String) : Addition → Prop
  | node _ => False
  | edge x y => (x = v ∧ y = w) ∨ (x = w ∧ y = v)
  | clique names => v ∈ names ∧ w ∈ names

instance (v w : String) (a : Addition) : Decidable (a.Joins v w) :=
  match a with
  | node _ => inferInstanceAs (Decidable False)
  | edge _ _ => inferInstanceAs (Decidable (_ ∨ _))
  | clique _ => inferInstanceAs (Decidable (_ ∧ _))

theorem node?_eq_some_iff {a : Addition} {v : String} : a.node? = some v ↔ a = node v := by
  cases a <;> simp [node?]

end Addition

namespace Interference

variable {g : Interference} {v w : String}

theorem build_concat (history : List Addition) (a : Addition) :
    build (history ++ [a]) = a.perform (build history) :=
  List.foldl_concat _ _ _ _

/-! ## Nodes -/

theorem vars_perform (g : Interference) (a : Addition) :
    (a.perform g).vars = g.vars ++ a.node?.toList.filter (· ∉ g.vars) := by
  cases a with
  | node v =>
    rw [Addition.perform, vars_addNode]
    by_cases hv : v ∈ g.vars <;> simp [hv, Addition.node?]
  | edge v w =>
    rw [Addition.perform]
    cases hg' : g.addEdge? v w with
    | none => exact (List.append_nil _).symm
    | some g' => exact (vars_of_addEdge? hg').trans (List.append_nil _).symm
  | clique names => exact (vars_addClique g names).trans (List.append_nil _).symm

/-- The nodes are the names that were added, each where it was added first. -/
theorem vars_build (history : List Addition) :
    (build history).vars = (history.filterMap Addition.node?).eraseDups := by
  induction history using List.reverseRecOn with
  | nil => rfl
  | append_singleton history a ih =>
    rw [build_concat, vars_perform, List.filterMap_append, List.eraseDups_append, ← ih]
    congr 1
    cases ha : a.node? with
    | none => simp [ha]
    | some v =>
      have hmem : v ∈ history.filterMap Addition.node? ↔ v ∈ (build history).vars := by
        rw [ih, List.mem_eraseDups]
      by_cases hv : v ∈ (build history).vars <;>
        simp [ha, List.removeAll, List.eraseDups_cons, hmem, hv, -List.mem_filterMap]

theorem mem_vars_build {history : List Addition} :
    v ∈ (build history).vars ↔ .node v ∈ history := by
  rw [vars_build, List.mem_eraseDups, List.mem_filterMap]
  simp only [Addition.node?_eq_some_iff, exists_eq_right]

/-- Later additions come after the nodes that are there. -/
theorem vars_prefix_build (history later : List Addition) :
    (build history).vars <+: (build (history ++ later)).vars := by
  induction later using List.reverseRecOn with
  | nil => exact (List.append_nil history).symm ▸ List.prefix_rfl
  | append_singleton later a ih =>
    rw [← List.append_assoc, build_concat, vars_perform]
    exact ih.trans (List.prefix_append _ _)

/-- A node stays at its place. -/
theorem getElem?_vars_build {history : List Addition} {i : Nat}
    (hv : (build history).vars[i]? = some v) (later : List Addition) :
    (build (history ++ later)).vars[i]? = some v := by
  obtain ⟨rest, hrest⟩ := vars_prefix_build history later
  rw [← hrest, List.getElem?_append_left (List.getElem?_eq_some_iff.1 hv).1]
  exact hv

/-- A node keeps its number. -/
theorem index_build {history : List Addition} {i : Nat}
    (hv : (NodeTables.build history).index[v]? = some i) (later : List Addition) :
    (NodeTables.build (history ++ later)).index[v]? = some i :=
  (NodeTables.inStep_build _).index_eq_some_iff.2
    (getElem?_vars_build ((NodeTables.inStep_build _).index_eq_some_iff.1 hv) later)

/-- A name that is added once more, whatever came in between, is told the number that it
    got first, and nothing changes. -/
theorem addNode_again (history later : List Addition) (v : String) :
    let t := NodeTables.build (history ++ .node v :: later)
    t.addNode v = (((NodeTables.build history).addNode v).1, t) := by
  intro t
  have hnode : (NodeTables.build (history ++ [.node v])).index[v]? =
      some ((NodeTables.build history).addNode v).1 := by
    rw [NodeTables.build_concat]
    exact NodeTables.index_addNode _ v
  have hkept : t.index[v]? = some ((NodeTables.build history).addNode v).1 := by
    simpa using index_build hnode later
  rw [NodeTables.addNode, hkept]

/-! ## Edges -/

theorem addEdge?_isSome_iff : (g.addEdge? v w).isSome ↔ v ≠ w ∧ v ∈ g.vars ∧ w ∈ g.vars := by
  simp only [Option.isSome_iff_exists, addEdge?_eq_some_iff, exists_and_left, exists_eq', and_true]

/-- An addition makes the edges that it asks for between different nodes. -/
theorem mem_neighbors_perform {a : Addition} :
    w ∈ (a.perform g).neighbors v ↔
      (v ≠ w ∧ a.Joins v w ∧ v ∈ g.vars ∧ w ∈ g.vars) ∨ w ∈ g.neighbors v := by
  cases a with
  | node x => simp [Addition.perform, Addition.Joins]
  | edge x y =>
    rw [Addition.perform, Addition.Joins]
    cases hg' : g.addEdge? x y with
    | none =>
      have hnot : ¬ (x ≠ y ∧ x ∈ g.vars ∧ y ∈ g.vars) := by
        rw [← addEdge?_isSome_iff, hg']
        exact Bool.false_ne_true
      rw [Option.getD_none]
      grind
    | some g' =>
      have hends := (addEdge?_eq_some_iff.1 hg').1
      rw [Option.getD_some, mem_neighbors_of_addEdge? hg']
      grind
  | clique names =>
    rw [Addition.perform, mem_neighbors_addClique, Addition.Joins]
    grind

/-- At some time the edge was asked for, and its ends had been added before. -/
def WasJoined (history : List Addition) (v w : String) : Prop :=
  ∃ before a after, history = before ++ a :: after ∧ a.Joins v w ∧
    .node v ∈ before ∧ .node w ∈ before

theorem wasJoined_concat {history : List Addition} {a : Addition} :
    WasJoined (history ++ [a]) v w ↔
      (a.Joins v w ∧ .node v ∈ history ∧ .node w ∈ history) ∨ WasJoined history v w := by
  constructor
  · rintro ⟨before, b, after, heq, hb⟩
    rcases after.eq_nil_or_concat with rfl | ⟨after, c, rfl⟩
    · obtain ⟨rfl, hab⟩ := List.append_inj' heq rfl
      cases hab
      exact .inl hb
    · rw [List.concat_eq_append, ← List.cons_append, ← List.append_assoc] at heq
      exact .inr ⟨before, b, after, (List.append_inj' heq rfl).1, hb⟩
  · rintro (ha | ⟨before, b, after, rfl, hb⟩)
    · exact ⟨history, a, [], rfl, ha⟩
    · exact ⟨before, b, after ++ [a], by simp, hb⟩

/-- The edges are those between different names that were ever joined. -/
theorem mem_neighbors_build {history : List Addition} :
    w ∈ (build history).neighbors v ↔ v ≠ w ∧ WasJoined history v w := by
  induction history using List.reverseRecOn with
  | nil =>
    refine iff_of_false not_mem_neighbors_empty ?_
    rintro ⟨-, before, a, after, heq, -⟩
    simp at heq
  | append_singleton history a ih =>
    rw [build_concat, mem_neighbors_perform, ih, wasJoined_concat, mem_vars_build, mem_vars_build]
    tauto

/-- Whatever is added, the nodes are the names that were added, each of them once and in
    the order of their first addition, and a node stays at its place. Edges go both ways
    and join no node with itself. Two different names are joined exactly if an addition
    asked for it when both were nodes, and an edge can be added exactly between two
    different nodes.

    The tables with the same additions are in step with the graph: the number of a node
    is its place, which is the one that its addition tells, and no later addition gives it
    another one. The tables show the same edges, and let the same edges be added. -/
theorem graph_remembers_additions (history : List Addition) :
    let g := build history
    let t := NodeTables.build history
    g.vars.Nodup ∧ g.vars = (history.filterMap Addition.node?).eraseDups ∧
    (∀ later (i : Nat) v, g.vars[i]? = some v → (build (history ++ later)).vars[i]? = some v) ∧
    (∀ v w, g.hasEdge v w ↔ g.hasEdge w v) ∧ (∀ v, ¬ g.hasEdge v v) ∧
    (∀ v w, g.hasEdge v w ↔ v ≠ w ∧ WasJoined history v w) ∧
    (∀ v w, (g.addEdge? v w).isSome ↔ v ≠ w ∧ v ∈ g.vars ∧ w ∈ g.vars) ∧
    t.InStep g ∧
    (∀ v, (t.addNode v).1 = (g.addNode v).1 ∧ (t.addNode v).2.InStep (g.addNode v).2 ∧
      (t.addNode v).2.index[v]? = some (t.addNode v).1) ∧
    (∀ later (v : String) i, t.index[v]? = some i →
      (NodeTables.build (history ++ later)).index[v]? = some i) ∧
    (∀ later v, let t' := NodeTables.build (history ++ .node v :: later)
      t'.addNode v = ((t.addNode v).1, t')) ∧
    (∀ v w, t.hasEdge v w = g.hasEdge v w) ∧ (∀ v, t.neighborList v = g.neighborList v) ∧
    ∀ v w, (t.addEdge v w).1 = (g.addEdge? v w).isSome := by
  intro g t
  have hg : g.Undirected := undirected_build history
  have ht : t.InStep g := NodeTables.inStep_build history
  refine ⟨hg.nodup_vars, vars_build history, fun later i v hv => getElem?_vars_build hv later,
    ?_, ?_, ?_, fun v w => addEdge?_isSome_iff, ht, fun v => ?_,
    fun later v i hi => index_build hi later, fun later v => addNode_again history later v,
    ht.hasEdge_eq hg, ht.neighborList_eq hg, fun v w => (ht.addEdge v w).1⟩
  · simp only [hasEdge_iff]
    exact fun v w => ⟨hg.symm, hg.symm⟩
  · simp only [hasEdge_iff]
    exact fun v => hg.irrefl
  · simp only [hasEdge_iff]
    exact fun v w => mem_neighbors_build
  · obtain ⟨hindex, hstep⟩ := ht.addNode hg v
    exact ⟨hindex, hstep, NodeTables.index_addNode t v⟩

/-- An edge and a clique that come too early, names that are added twice, and a clique
    that has a name twice and one that is no node. -/
def earlyEdges : List Addition :=
  [.node "b", .edge "b" "a", .clique ["a", "b", "c"], .node "a", .node "b", .edge "a" "a",
    .node "c", .clique ["c", "b", "c", "d"]]

theorem graph_remembers_additions_earlyEdges :
    let g := build earlyEdges
    let t := NodeTables.build earlyEdges
    g.vars = ["b", "a", "c"] ∧ (build (earlyEdges ++ [.node "d"])).vars[2]? = some "c" ∧
      g.hasEdge "c" "b" ∧ ¬ WasJoined earlyEdges "a" "b" ∧ ¬ (g.addEdge? "b" "d").isSome ∧
      (NodeTables.build (earlyEdges ++ [.node "d"])).index["c"]? = some 2 ∧
      t.addNode "b" = (0, t) ∧ (t.addNode "d").1 = 3 ∧ t.neighborList "b" = ["c"] ∧
      ¬ (t.addEdge "b" "d").1 := by
  intro g t
  obtain ⟨-, hvars, hplace, -, -, hedge, hadd, hstep, hnode, hindex, -, -, hlist, htell⟩ :=
    graph_remembers_additions earlyEdges
  have hnames : g.vars = ["b", "a", "c"] := hvars.trans (by decide)
  have hab : ¬ g.hasEdge "a" "b" := by decide +kernel
  have hbd : ¬ (g.addEdge? "b" "d").isSome := fun h => by
    have hd := ((hadd "b" "d").1 h).2.2
    rw [show (build earlyEdges).vars = _ from hnames] at hd
    exact absurd hd (by decide)
  refine ⟨hnames, hplace _ 2 "c" (hnames ▸ rfl), (hedge "c" "b").2 ⟨by decide, ?_⟩, fun h => ?_,
    hbd, hindex _ "c" 2 (hstep.index_eq_some_iff.2 (hnames ▸ rfl)), ?_, ?_, ?_, ?_⟩
  · -- The last addition asks for this edge, after seven others.
    exact ⟨earlyEdges.take 7, .clique ["c", "b", "c", "d"], [], rfl, by decide⟩
  · exact hab ((hedge "a" "b").2 ⟨by decide, h⟩)
  · -- The name was the first one to be added.
    obtain ⟨-, -, -, -, -, -, -, -, -, -, hagain, -⟩ := graph_remembers_additions []
    exact hagain (earlyEdges.drop 1) "b"
  · rw [(hnode "d").1]
    exact congrArg List.length hnames
  · rw [hlist "b"]
    decide +kernel
  · rw [htell "b" "d"]
    exact hbd

end Interference

end Midend
