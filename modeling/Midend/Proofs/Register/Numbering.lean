import Mathlib.Data.List.Induction
import Mathlib.Data.List.Sort
import Midend.Proofs.Flow.Adjacency
import Midend.Proofs.Register.Construction

/-!
# Graphs with numbered nodes

A graph can be kept in three tables: the names of the nodes by their numbers, the
number of each name, and the numbers of the neighbors of each node. A new node gets
the next number, and all tables grow. An edge is entered from both of its ends, and a
clique as the edges between each node in a list and those after it.

The tables stay in step with the graph that has the same additions
(`NodeTables.InStep`): the first two are inverse to each other and number the nodes in
the order of the graph, and the third one holds its edges.

* `InStep.addNode`, `InStep.addEdge`, `InStep.addClique`: one addition, and what it
  tells;
* `inStep_build`: any additions;
* `InStep.hasEdge_eq`, `InStep.neighborList_eq`: so the tables show what the graph does.
-/

namespace Midend

theorem filterMap_getElem?_range {α : Type} (l : List α) :
    (List.range l.length).filterMap (l[·]?) = l := by
  induction l with
  | nil => rfl
  | cons x l ih => simpa [List.range_succ_eq_map, List.filterMap_map, Function.comp_def] using ih

/-- A graph of which the nodes are numbered. -/
structure NodeTables where
  /-- The name of each node, by its number. -/
  names : Array String := #[]
  /-- The number of each node, by its name. -/
  index : Std.ExtTreeMap String Nat := ∅
  /-- The numbers of the neighbors of each node, by its number. -/
  adjacent : Array (Std.ExtTreeSet Nat) := #[]
  deriving DecidableEq

namespace NodeTables

/-- The numbers of the neighbors of a node. -/
def adjacentTo (t : NodeTables) (i : Nat) : Std.ExtTreeSet Nat := t.adjacent[i]?.getD ∅

/-- Adds a node, unless it is there already. The result is its number. -/
def addNode (t : NodeTables) (v : String) : Nat × NodeTables :=
  match t.index[v]? with
  | some i => (i, t)
  | none =>
    let i := t.names.size
    (i, ⟨t.names.push v, t.index.insert v i, t.adjacent.push ∅⟩)

/-- Enters an edge between two different nodes from both of its ends. -/
def join (t : NodeTables) (i j : Nat) : NodeTables :=
  if i = j then t
  else { t with adjacent := (t.adjacent.modify i (·.insert j)).modify j (·.insert i) }

/-- Adds an edge between two different nodes, and tells whether there are such nodes. -/
def addEdge (t : NodeTables) (v w : String) : Bool × NodeTables :=
  match t.index[v]?, t.index[w]? with
  | some i, some j => (i ≠ j, t.join i j)
  | _, _ => (false, t)

/-- Joins each node in a list with those after it. -/
def joinAll (t : NodeTables) : List Nat → NodeTables
  | [] => t
  | i :: is => (is.foldl (·.join i ·) t).joinAll is

/-- Adds all edges between nodes in a list; names that are no nodes do not count. -/
def addClique (t : NodeTables) (names : List String) : NodeTables :=
  t.joinAll (names.filterMap (t.index[·]?))

/-- Whether there is an edge between two names. -/
def hasEdge (t : NodeTables) (v w : String) : Bool :=
  match t.index[v]?, t.index[w]? with
  | some i, some j => j ∈ t.adjacentTo i
  | _, _ => false

/-- The names of the neighbors of a node, in the order of their numbers. -/
def neighborList (t : NodeTables) (v : String) : List String :=
  match t.index[v]? with
  | some i => (t.adjacentTo i).toList.filterMap (t.names[·]?)
  | none => []

/-- The tables number the nodes of the graph, and hold its edges. -/
structure InStep (t : NodeTables) (g : Interference) : Prop where
  names_eq : t.names.toList = g.vars
  index_eq_some_iff : ∀ {v : String} {i : Nat}, t.index[v]? = some i ↔ g.vars[i]? = some v
  size_adjacent : t.adjacent.size = g.size
  lt_of_mem : ∀ {i j : Nat}, j ∈ t.adjacentTo i → j < g.size
  mem_adjacentTo : ∀ {i j : Nat} {v w : String}, g.vars[i]? = some v → g.vars[j]? = some w →
    (j ∈ t.adjacentTo i ↔ w ∈ g.neighbors v)

variable {t t' : NodeTables} {g g' : Interference} {v w : String}

/-! ## Edges of the tables -/

/-- The tables have the same nodes, with the same numbers. -/
structure SameNodes (t t' : NodeTables) : Prop where
  names_eq : t'.names = t.names
  index_eq : t'.index = t.index
  size_eq : t'.adjacent.size = t.adjacent.size

theorem SameNodes.refl (t : NodeTables) : SameNodes t t := ⟨rfl, rfl, rfl⟩

theorem SameNodes.trans {t'' : NodeTables} (h : SameNodes t t') (h' : SameNodes t' t'') :
    SameNodes t t'' :=
  ⟨h'.names_eq.trans h.names_eq, h'.index_eq.trans h.index_eq, h'.size_eq.trans h.size_eq⟩

theorem sameNodes_join (t : NodeTables) (i j : Nat) : SameNodes t (t.join i j) := by
  unfold join
  split
  · exact .refl t
  · exact ⟨rfl, rfl, by simp⟩

theorem mem_adjacentTo_join {i j k l : Nat} (hi : i < t.adjacent.size) (hj : j < t.adjacent.size) :
    l ∈ (t.join i j).adjacentTo k ↔
      (i ≠ j ∧ (k = i ∧ l = j ∨ k = j ∧ l = i)) ∨ l ∈ t.adjacentTo k := by
  unfold join
  split
  next h => simp [h]
  next h =>
    simp only [adjacentTo]
    rw [getD_modify (by simpa using hj), getD_modify hi]
    split <;> split <;> simp <;> grind

theorem sameNodes_foldl_join (t : NodeTables) (i : Nat) (is : List Nat) :
    SameNodes t (is.foldl (·.join i ·) t) := by
  induction is generalizing t with
  | nil => exact .refl t
  | cons j is ih => exact (sameNodes_join t i j).trans (ih _)

/-- One of the nodes is joined with the others. -/
theorem mem_adjacentTo_foldl_join {i k l : Nat} {is : List Nat} (hi : i < t.adjacent.size)
    (his : ∀ j ∈ is, j < t.adjacent.size) :
    l ∈ (is.foldl (·.join i ·) t).adjacentTo k ↔
      (k ≠ l ∧ (k = i ∧ l ∈ is ∨ k ∈ is ∧ l = i)) ∨ l ∈ t.adjacentTo k := by
  induction is generalizing t with
  | nil => simp
  | cons j is ih =>
    obtain ⟨hj, his⟩ := List.forall_mem_cons.1 his
    have hsize := (sameNodes_join t i j).size_eq
    rw [List.foldl_cons, ih (by rwa [hsize]) (by rwa [hsize]), mem_adjacentTo_join hi hj]
    grind

theorem sameNodes_joinAll (t : NodeTables) (is : List Nat) : SameNodes t (t.joinAll is) := by
  induction is generalizing t with
  | nil => exact .refl t
  | cons i is ih => exact (sameNodes_foldl_join t i is).trans (ih _)

/-- Any two of the nodes are joined. -/
theorem mem_adjacentTo_joinAll {k l : Nat} {is : List Nat} (his : ∀ i ∈ is, i < t.adjacent.size) :
    l ∈ (t.joinAll is).adjacentTo k ↔ (k ≠ l ∧ k ∈ is ∧ l ∈ is) ∨ l ∈ t.adjacentTo k := by
  induction is generalizing t with
  | nil => simp [joinAll]
  | cons i is ih =>
    obtain ⟨hi, his⟩ := List.forall_mem_cons.1 his
    have hsize := (sameNodes_foldl_join t i is).size_eq
    rw [joinAll, ih (by rwa [hsize]), mem_adjacentTo_foldl_join hi his]
    grind

/-- A node that was added has the number that is told. -/
theorem index_addNode (t : NodeTables) (v : String) :
    (t.addNode v).2.index[v]? = some (t.addNode v).1 := by
  rw [addNode]
  split
  next hi => exact hi
  next => simp

/-! ## In step -/

namespace InStep

theorem empty : InStep {} {} where
  names_eq := rfl
  index_eq_some_iff := by simp
  size_adjacent := rfl
  lt_of_mem := by simp [adjacentTo]
  mem_adjacentTo := by simp

theorem size_names (h : t.InStep g) : t.names.size = g.size := by
  rw [← Array.length_toList, h.names_eq, Interference.size]

theorem lt_size (h : t.InStep g) {i : Nat} (hi : t.index[v]? = some i) : i < g.size :=
  (List.getElem?_eq_some_iff.1 (h.index_eq_some_iff.1 hi)).1

theorem mem_vars (h : t.InStep g) {i : Nat} (hi : t.index[v]? = some i) : v ∈ g.vars :=
  List.mem_of_getElem? (h.index_eq_some_iff.1 hi)

theorem index_eq_none_iff (h : t.InStep g) : t.index[v]? = none ↔ v ∉ g.vars := by
  rw [List.mem_iff_getElem?, Option.eq_none_iff_forall_ne_some]
  simp only [ne_eq, h.index_eq_some_iff, not_exists]

/-- A node is numbered by its place. -/
theorem index_eq (h : t.InStep g) (hv : v ∈ g.vars) : t.index[v]? = some (g.vars.idxOf v) :=
  h.index_eq_some_iff.2 (List.getElem?_eq_some_iff.2
    ⟨List.idxOf_lt_length_iff.2 hv, List.getElem_idxOf _⟩)

theorem eq_iff (h : t.InStep g) {i j : Nat} (hi : g.vars[i]? = some v) (hj : g.vars[j]? = some w) :
    i = j ↔ v = w := by
  constructor
  · rintro rfl
    exact Option.some.inj (hi.symm.trans hj)
  · rintro rfl
    exact Option.some.inj
      ((h.index_eq_some_iff.2 hi).symm.trans (h.index_eq_some_iff.2 hj))

/-- Other edges make no difference to the numbers. -/
theorem of_sameNodes (h : t.InStep g) (ht : SameNodes t t') (hvars : g'.vars = g.vars)
    (hlt : ∀ {i j : Nat}, j ∈ t'.adjacentTo i → j < g.size)
    (hmem : ∀ {i j : Nat} {v w : String}, g.vars[i]? = some v → g.vars[j]? = some w →
      (j ∈ t'.adjacentTo i ↔ w ∈ g'.neighbors v)) : t'.InStep g' where
  names_eq := by rw [ht.names_eq, hvars, h.names_eq]
  index_eq_some_iff := by
    rw [ht.index_eq, hvars]
    exact h.index_eq_some_iff
  size_adjacent := by rw [ht.size_eq, h.size_adjacent, Interference.size, Interference.size, hvars]
  lt_of_mem := by
    rw [Interference.size, hvars]
    exact hlt
  mem_adjacentTo := by
    rw [hvars]
    exact hmem

theorem not_mem_adjacentTo (h : t.InStep g) {i j : Nat} (hi : g.size ≤ i) :
    j ∉ t.adjacentTo i := by
  rw [adjacentTo, Array.getElem?_eq_none (h.size_adjacent ▸ hi)]
  simp

/-- A node gets the same number in the tables and in the graph. -/
theorem addNode (h : t.InStep g) (hg : g.Undirected) (v : String) :
    (t.addNode v).1 = (g.addNode v).1 ∧ (t.addNode v).2.InStep (g.addNode v).2 := by
  by_cases hv : v ∈ g.vars
  · rw [NodeTables.addNode, h.index_eq hv, Interference.addNode, if_pos hv]
    exact ⟨rfl, h⟩
  rw [NodeTables.addNode, h.index_eq_none_iff.2 hv, Interference.addNode, if_neg hv]
  have hadjacent : ∀ i, adjacentTo ⟨t.names.push v, t.index.insert v t.names.size,
      t.adjacent.push ∅⟩ i = t.adjacentTo i := by
    intro i
    simp only [adjacentTo, Array.getElem?_push]
    split
    next hi => simp [hi]
    next => rfl
  -- The last place is that of the new node, and the others are as they were.
  have hplace : ∀ {i : Nat} {x : String}, (g.vars ++ [v])[i]? = some x ↔
      g.vars[i]? = some x ∨ (i = g.size ∧ v = x) := by
    intro i x
    rcases Nat.lt_trichotomy i g.size with hi | rfl | hi
    · simp [List.getElem?_append_left hi, Nat.ne_of_lt hi]
    · simp [Interference.size]
    · have hlen : (g.vars ++ [v]).length ≤ i := List.length_append.trans_le hi
      simp [List.getElem?_eq_none hlen, List.getElem?_eq_none (Nat.le_of_lt hi), Nat.ne_of_gt hi]
  refine ⟨h.size_names, ?_, fun {x i} => ?_, ?_, fun {i j} hj => ?_, fun {i j x y} hx hy => ?_⟩
  · simp [h.names_eq]
  · rw [hplace, Std.ExtTreeMap.getElem?_insert, h.size_names, ← h.index_eq_some_iff]
    by_cases hx : v = x
    · subst hx
      simp [h.index_eq_none_iff.2 hv, eq_comm]
    · simp [hx]
  · simp [h.size_adjacent, Interference.size]
  · rw [hadjacent] at hj
    exact Nat.lt_of_lt_of_le (h.lt_of_mem hj) (by simp [Interference.size])
  · rw [hadjacent]
    change _ ↔ y ∈ g.neighbors x
    rcases hplace.1 hx with hx | ⟨rfl, rfl⟩
    · rcases hplace.1 hy with hy | ⟨rfl, rfl⟩
      · exact h.mem_adjacentTo hx hy
      · exact iff_of_false (fun hj => Nat.lt_irrefl _ (h.lt_of_mem hj)) fun hv' =>
          hv (hg.mem_vars hv')
    · exact iff_of_false (h.not_mem_adjacentTo (Nat.le_refl _)) fun hy =>
        hv (hg.mem_vars (hg.symm hy))

/-- An edge is added to the tables if it is added to the graph. -/
theorem addEdge (h : t.InStep g) (v w : String) :
    (t.addEdge v w).1 = (g.addEdge? v w).isSome ∧
      (t.addEdge v w).2.InStep ((g.addEdge? v w).getD g) := by
  by_cases hends : v ∈ g.vars ∧ w ∈ g.vars
  · obtain ⟨hi, hj⟩ := And.imp h.index_eq h.index_eq hends
    obtain ⟨hv, hw⟩ := And.intro (h.index_eq_some_iff.1 hi) (h.index_eq_some_iff.1 hj)
    rw [NodeTables.addEdge, hi, hj]
    by_cases hvw : v = w
    · subst hvw
      simpa [Interference.addEdge?, join] using h
    have hne := mt (h.eq_iff hv hw).1 hvw
    have hsome := Interference.addEdge?_eq_some_iff.2 ⟨⟨hvw, hends⟩, rfl⟩
    have hmem := fun {k l} =>
      mem_adjacentTo_join (t := t) (k := k) (l := l) (h.size_adjacent ▸ h.lt_size hi)
        (h.size_adjacent ▸ h.lt_size hj)
    rw [hsome]
    refine ⟨decide_eq_true hne, h.of_sameNodes (sameNodes_join t _ _)
      (Interference.vars_of_addEdge? hsome) (fun {k l} hl => ?_) fun {k l x y} hx hy => ?_⟩
    · rcases hmem.1 hl with ⟨-, ⟨-, rfl⟩ | ⟨-, rfl⟩⟩ | hl
      · exact h.lt_size hj
      · exact h.lt_size hi
      · exact h.lt_of_mem hl
    · rw [hmem, h.mem_adjacentTo hx hy, h.eq_iff hx hv, h.eq_iff hx hw, h.eq_iff hy hv,
        h.eq_iff hy hw, Option.getD_some, Interference.mem_neighbors_of_addEdge? hsome]
      grind
  · have hnone : g.addEdge? v w = none := if_neg fun hc => hends hc.2
    have htables : t.addEdge v w = (false, t) := by
      rw [NodeTables.addEdge]
      split
      next hi hj =>
        exact absurd ⟨h.mem_vars hi, h.mem_vars hj⟩ hends
      next => rfl
    rw [hnone, htables]
    exact ⟨rfl, h⟩

theorem addClique (h : t.InStep g) (names : List String) :
    (t.addClique names).InStep (g.addClique names) := by
  have hindex : ∀ {i : Nat} {v : String}, g.vars[i]? = some v →
      (i ∈ names.filterMap (t.index[·]?) ↔ v ∈ names ∧ v ∈ g.vars) := by
    intro i v hi
    simp only [List.mem_filterMap, h.index_eq_some_iff]
    refine ⟨fun ⟨w, hw, hi'⟩ => ?_, fun hv => ⟨v, hv.1, hi⟩⟩
    obtain rfl := Option.some.inj (hi.symm.trans hi')
    exact ⟨hw, List.mem_of_getElem? hi⟩
  have hlt : ∀ i ∈ names.filterMap (t.index[·]?), i < g.size := by
    intro i hi
    obtain ⟨v, -, hv⟩ := List.mem_filterMap.1 hi
    exact h.lt_size hv
  have hmem := fun {k l} =>
    mem_adjacentTo_joinAll (t := t) (k := k) (l := l) (h.size_adjacent ▸ hlt)
  refine h.of_sameNodes (sameNodes_joinAll t _) (Interference.vars_addClique g names)
    (fun {i j} hj => ?_) fun {i j v w} hi hj => ?_
  · rcases hmem.1 hj with ⟨-, -, hj⟩ | hj
    · exact hlt j hj
    · exact h.lt_of_mem hj
  · rw [NodeTables.addClique, hmem, hindex hi, hindex hj, h.mem_adjacentTo hi hj, ne_eq,
      h.eq_iff hi hj, Interference.mem_neighbors_addClique]

theorem hasEdge_eq (h : t.InStep g) (hg : g.Undirected) (v w : String) :
    t.hasEdge v w = g.hasEdge v w := by
  rw [Bool.eq_iff_iff, Interference.hasEdge_iff, NodeTables.hasEdge]
  split
  next hi hj =>
    rw [decide_eq_true_iff]
    exact h.mem_adjacentTo (h.index_eq_some_iff.1 hi) (h.index_eq_some_iff.1 hj)
  next hnot =>
    refine iff_of_false Bool.false_ne_true fun hw => ?_
    exact hnot _ _ (h.index_eq (hg.mem_vars (hg.symm hw))) (h.index_eq (hg.mem_vars hw))

/-- The neighbors come in the order of the nodes, as that is the order of their
    numbers. -/
theorem neighborList_eq (h : t.InStep g) (hg : g.Undirected) (v : String) :
    t.neighborList v = g.neighborList v := by
  rw [NodeTables.neighborList, Interference.neighborList]
  cases hi : t.index[v]? with
  | none =>
    refine (List.filter_eq_nil_iff.2 fun w _ hw => ?_).symm
    exact h.index_eq_none_iff.1 hi (hg.mem_vars (hg.symm (of_decide_eq_true hw)))
  | some i =>
    have hsorted : (t.adjacentTo i).toList =
        (List.range g.size).filter (· ∈ t.adjacentTo i) := by
      refine List.Pairwise.eq_of_mem_iff (r := (· < ·)) ?_ ?_ fun j => ?_
      · exact Std.ExtTreeSet.ordered_toList.imp Nat.compare_eq_lt.1
      · exact List.pairwise_lt_range.filter _
      · simpa using h.lt_of_mem
    have hname : ∀ j : Nat, t.names[j]? = g.vars[j]? := fun j => by
      rw [← Array.getElem?_toList, h.names_eq]
    calc (t.adjacentTo i).toList.filterMap (t.names[·]?)
      _ = (List.range g.size).filterMap fun j =>
            (g.vars[j]?).filter (· ∈ g.neighbors v) := by
          rw [hsorted, List.filterMap_filter]
          refine List.filterMap_congr fun j _ => ?_
          cases hj : g.vars[j]? with
          | none => simp [hname, hj]
          | some w =>
            simp [hname, hj, h.mem_adjacentTo (h.index_eq_some_iff.1 hi) hj, Option.filter]
      _ = g.vars.filter (· ∈ g.neighbors v) := by
          rw [← List.filter_filterMap, Interference.size, filterMap_getElem?_range]

end InStep

end NodeTables

/-! ## Any additions -/

/-- The tables after an addition. -/
def Addition.enter (t : NodeTables) : Addition → NodeTables
  | node v => (t.addNode v).2
  | edge v w => (t.addEdge v w).2
  | clique names => t.addClique names

namespace NodeTables

/-- The tables that additions make of empty ones. -/
def build (history : List Addition) : NodeTables := history.foldl Addition.enter {}

theorem build_concat (history : List Addition) (a : Addition) :
    build (history ++ [a]) = a.enter (build history) :=
  List.foldl_concat _ _ _ _

theorem InStep.enter {t : NodeTables} {g : Interference} (h : t.InStep g) (hg : g.Undirected)
    (a : Addition) : (a.enter t).InStep (a.perform g) := by
  cases a with
  | node v => exact (h.addNode hg v).2
  | edge v w => exact (h.addEdge v w).2
  | clique names => exact h.addClique names

/-- Tables and graph stay in step, whatever is added. -/
theorem inStep_build (history : List Addition) :
    (build history).InStep (Interference.build history) := by
  induction history using List.reverseRecOn with
  | nil => exact .empty
  | append_singleton history a ih =>
    rw [build_concat, Interference.build, List.foldl_concat]
    exact ih.enter (Interference.undirected_build history) a

end NodeTables

end Midend
