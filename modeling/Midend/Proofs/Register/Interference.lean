import Mathlib.Data.List.Nodup
import Midend.Proofs.Flow.Liveness
import Midend.Register.Interference

/-!
# Interference graphs are undirected and exact

A graph that is made by adding nodes and cliques of edges is *undirected*: no
node occurs twice, edges are between nodes, go both ways and join no node with
itself. The interference graph of a method has the locals as its nodes, and an
edge between two locals exactly if some instruction has both live before it, or
each of them live after it or assigned by it.

* `Undirected.addNode`, `Undirected.addClique`: the operations keep a graph
  undirected;
* `mem_neighbors_ofLiveness`: the edges of the interference graph;
* `interference_graph_exact`: the nodes and edges for the flow of the method.
-/

namespace Midend.Interference

/-- The nodes do not repeat, and the edges join different nodes, both ways. -/
structure Undirected (g : Interference) : Prop where
  nodup_vars : g.vars.Nodup
  mem_vars : ∀ {v w : String}, w ∈ g.neighbors v → w ∈ g.vars
  symm : ∀ {v w : String}, w ∈ g.neighbors v → v ∈ g.neighbors w
  irrefl : ∀ {v : String}, v ∉ g.neighbors v

theorem not_mem_neighbors_empty {v w : String} : w ∉ ({} : Interference).neighbors v := by
  simp [neighbors]

theorem Undirected.empty : Undirected {} where
  nodup_vars := List.nodup_nil
  mem_vars h := absurd h not_mem_neighbors_empty
  symm h := absurd h not_mem_neighbors_empty
  irrefl := not_mem_neighbors_empty

@[simp] theorem neighbors_addNode (g : Interference) (v w : String) :
    (g.addNode v).2.neighbors w = g.neighbors w := by
  rw [addNode]
  split <;> rfl

theorem vars_addNode (g : Interference) (v : String) :
    (g.addNode v).2.vars = if v ∈ g.vars then g.vars else g.vars ++ [v] := by
  rw [addNode]
  split <;> rfl

@[simp] theorem mem_vars_addNode {g : Interference} {v w : String} :
    w ∈ (g.addNode v).2.vars ↔ w ∈ g.vars ∨ w = v := by
  rw [vars_addNode]
  split
  next h =>
    refine ⟨.inl, fun hw => ?_⟩
    rcases hw with hw | rfl
    · exact hw
    · exact h
  next => simp

theorem Undirected.addNode {g : Interference} (h : g.Undirected) (v : String) :
    (g.addNode v).2.Undirected where
  nodup_vars := by
    rw [vars_addNode]
    split
    next => exact h.nodup_vars
    next hv =>
      rw [← List.concat_eq_append]
      exact h.nodup_vars.concat hv
  mem_vars hw := by
    rw [neighbors_addNode] at hw
    exact mem_vars_addNode.2 (.inl (h.mem_vars hw))
  symm hw := by
    rw [neighbors_addNode] at hw ⊢
    exact h.symm hw
  irrefl := by
    intro w
    rw [neighbors_addNode]
    exact h.irrefl

@[simp] theorem vars_addClique (g : Interference) (names : List String) :
    (g.addClique names).vars = g.vars := by
  suffices h : ∀ (nodes vs : List String) (g : Interference),
      (vs.foldl (fun g v => g.addNeighbors v (nodes.filter (· ≠ v))) g).vars = g.vars from
    h _ _ _
  intro nodes vs
  induction vs with
  | nil => exact fun _ => rfl
  | cons v vs ih => exact fun g => (ih _).trans (vars_addNeighbors g v _)

theorem Undirected.addClique {g : Interference} (h : g.Undirected) (names : List String) :
    (g.addClique names).Undirected where
  nodup_vars := by
    rw [vars_addClique]
    exact h.nodup_vars
  mem_vars hw := by
    rw [vars_addClique]
    rcases mem_neighbors_addClique.1 hw with ⟨_, _, _, hw⟩ | hw
    · exact hw
    · exact h.mem_vars hw
  symm hw := by
    rw [mem_neighbors_addClique] at hw ⊢
    rcases hw with ⟨hne, hv, hw⟩ | hw
    · exact .inl ⟨hne.symm, hw, hv⟩
    · exact .inr (h.symm hw)
  irrefl := by
    intro v hv
    rcases mem_neighbors_addClique.1 hv with ⟨hne, _⟩ | hv
    · exact hne rfl
    · exact h.irrefl hv

/-! ## The graph of a method -/

theorem vars_addNodes (names : List String) {g : Interference} (h : (g.vars ++ names).Nodup) :
    (g.addNodes names).vars = g.vars ++ names := by
  induction names generalizing g with
  | nil => exact (List.append_nil _).symm
  | cons v names ih =>
    have hv : v ∉ g.vars := fun hv =>
      (List.nodup_append.1 h).2.2 v hv v List.mem_cons_self rfl
    have hvars : (g.addNode v).2.vars = g.vars ++ [v] := by rw [vars_addNode, if_neg hv]
    have happ : g.vars ++ v :: names = (g.addNode v).2.vars ++ names := by rw [hvars]; simp
    rw [happ]
    exact ih (happ ▸ h)

theorem neighbors_addNodes (names : List String) (g : Interference) (w : String) :
    (g.addNodes names).neighbors w = g.neighbors w := by
  induction names generalizing g with
  | nil => rfl
  | cons v names ih => exact (ih _).trans (neighbors_addNode g v w)

theorem nodup_locals (m : Method) : m.locals.Nodup :=
  Std.ExtTreeMap.distinct_keys.imp fun h he => h (by simp [he])

@[simp] theorem vars_addInstruction (live : Liveness) (g : Interference) (i : Nat) :
    (addInstruction live g i).vars = g.vars := by
  rw [addInstruction, vars_addClique, vars_addClique]

/-- Both variables are live before an instruction, or each of them is assigned by
    it or live after it. -/
def Meet (live : Liveness) (i : Nat) (v w : String) : Prop :=
  (v ∈ live.liveIn i ∧ w ∈ live.liveIn i) ∨
    ((v ∈ live.defs i ∨ v ∈ live.liveOut i) ∧ (w ∈ live.defs i ∨ w ∈ live.liveOut i))

theorem mem_neighbors_addInstruction {live : Liveness} {g : Interference} {i : Nat}
    {v w : String} :
    w ∈ (addInstruction live g i).neighbors v ↔
      (v ≠ w ∧ v ∈ g.vars ∧ w ∈ g.vars ∧ Meet live i v w) ∨ w ∈ g.neighbors v := by
  simp only [addInstruction, mem_neighbors_addClique, vars_addClique, List.mem_append,
    Std.ExtTreeSet.mem_toList, Meet]
  grind

theorem vars_foldl_addInstruction (live : Liveness) (is : List Nat) (g : Interference) :
    (is.foldl (addInstruction live) g).vars = g.vars := by
  induction is generalizing g with
  | nil => rfl
  | cons i is ih => rw [List.foldl_cons, ih, vars_addInstruction]

theorem mem_neighbors_foldl_addInstruction {live : Liveness} {is : List Nat} {g : Interference}
    {v w : String} :
    w ∈ (is.foldl (addInstruction live) g).neighbors v ↔
      (v ≠ w ∧ v ∈ g.vars ∧ w ∈ g.vars ∧ ∃ i ∈ is, Meet live i v w) ∨ w ∈ g.neighbors v := by
  induction is generalizing g with
  | nil => simp
  | cons i is ih =>
    rw [List.foldl_cons, ih, vars_addInstruction, mem_neighbors_addInstruction]
    simp only [List.exists_mem_cons_iff]
    grind

/-- The nodes of the interference graph are the locals. -/
@[simp] theorem vars_ofLiveness (m : Method) (live : Liveness) :
    (ofLiveness m live).vars = m.locals := by
  rw [ofLiveness, vars_foldl_addInstruction, vars_addNodes]
  · rfl
  · exact nodup_locals m

/-- Two locals interfere exactly if they are different and meet at some
    instruction. -/
theorem mem_neighbors_ofLiveness {m : Method} {live : Liveness} {v w : String} :
    w ∈ (ofLiveness m live).neighbors v ↔
      v ≠ w ∧ v ∈ m.locals ∧ w ∈ m.locals ∧ ∃ i < live.size, Meet live i v w := by
  have hvars : (addNodes {} m.locals).vars = m.locals := vars_addNodes m.locals (nodup_locals m)
  rw [ofLiveness, mem_neighbors_foldl_addInstruction, neighbors_addNodes, hvars]
  simp only [List.mem_range, not_mem_neighbors_empty, or_false]

theorem locals_eq_map_filter (m : Method) :
    m.locals = (m.table.toList.filter fun p => p.2.scope = .localVar).map Prod.fst := by
  rw [Method.locals, ← Std.ExtTreeMap.map_fst_toList_eq_keys, Std.ExtTreeMap.toList_filter]

/-- The interference graph of a method with a flow graph has as its nodes the
    locals, in the order of the variable table, and an edge exactly between two
    different locals that meet at an instruction. -/
theorem interference_graph_exact {m : Method} {g : FlowGraph} (hg : m.flowGraph = .ok g) :
    let live := Liveness.ofMethod m g
    let graph := ofLiveness m live
    graph.vars = (m.table.toList.filter fun p => p.2.scope = .localVar).map Prod.fst ∧
    ∀ v w, graph.hasEdge v w ↔
      v ≠ w ∧ v ∈ graph.vars ∧ w ∈ graph.vars ∧ ∃ i < m.code.size, Meet live i v w := by
  intro live graph
  have hsize : live.size = m.code.size := by
    rw [Liveness.size_ofMethod, Method.size_flowGraph hg]
  refine ⟨(vars_ofLiveness m live).trans (locals_eq_map_filter m), fun v w => ?_⟩
  rw [hasEdge_iff, mem_neighbors_ofLiveness, vars_ofLiveness, hsize]

/-- An instance method of a parameter `p` that assigns a local `d` in vain. -/
def vainAssignment : Method :=
  Method.empty "f" false |>.declareParam "p" |>.declareLocal "d" |>.declareLocal "b"
    |>.declareLocal "a"
    |>.push (.assign (.var "a") (.binary (.arith .add) (.var "p") (.const 1)))
    |>.push (.assign (.var "b") (.binary (.arith .add) (.var "a") (.var "p")))
    |>.push (.assign (.var "d") (.binary (.arith .add) (.var "b") (.var "a")))
    |>.push (.ret (some (.var "b")))

/-- The local `d` is live nowhere, but interferes with `b`, which is live after the
    assignment to `d`. The parameter is no node, so that nothing interferes with
    it. -/
theorem interference_graph_exact_vainAssignment :
    vainAssignment.flowGraph = .ok ⟨#[[1], [2], [3], []]⟩ ∧
      let live := Liveness.ofMethod vainAssignment ⟨#[[1], [2], [3], []]⟩
      let graph := ofLiveness vainAssignment live
      (∀ i < 4, "d" ∉ live.liveIn i ∧ "d" ∉ live.liveOut i) ∧ graph.vars = ["a", "b", "d"] ∧
        graph.hasEdge "b" "d" ∧ ¬ graph.hasEdge "a" "p" := by
  have hg : vainAssignment.flowGraph = .ok ⟨#[[1], [2], [3], []]⟩ := by rfl
  obtain ⟨hvars, hedge⟩ := interference_graph_exact hg
  have hnodes := hvars.trans (show _ = ["a", "b", "d"] by decide +kernel)
  refine ⟨hg, by decide +kernel, hnodes, (hedge "b" "d").2 ?_, fun h => ?_⟩
  · rw [hnodes]
    exact ⟨by decide, by decide, by decide, 2, by decide, .inr (by decide +kernel)⟩
  · obtain ⟨-, -, hp, -⟩ := (hedge "a" "p").1 h
    rw [hnodes] at hp
    exact absurd hp (by decide)

end Midend.Interference
