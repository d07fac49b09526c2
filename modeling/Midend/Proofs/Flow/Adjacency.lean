import Mathlib.Data.List.Nodup
import Mathlib.Data.List.Sort
import Midend.Proofs.Flow.Edges

/-!
# The flow graph, edge by edge

The edges of a method can be entered one at a time, in the order of the
instructions, into a table of successors and a table of predecessors. An edge past
the last instruction is left out, and one that is there already is not entered
again, which only the first table is asked about. The two tables stay in step all
the same: each is the other one turned around, no successor repeats, and the
predecessors of a node are in increasing order (`EdgeTables.InStep`). What they hold
in the end is the flow graph (`Method.edgeTables_eq`).

* `Method.flow_graph_exact`: when a method has a flow graph, and what its edges are.
-/

namespace Midend

/-- The entry that is modified is there, and no other one changes. -/
theorem getD_modify {α : Type} {xs : Array α} {c : α → α} {d : α} {i : Nat} (hi : i < xs.size)
    (k : Nat) :
    (xs.modify i c)[k]?.getD d = if k = i then c (xs[k]?.getD d) else xs[k]?.getD d := by
  rw [Array.getElem?_modify]
  by_cases hk : k = i
  · subst hk
    simp [hi]
  · rw [if_neg (Ne.symm hk), if_neg hk]

/-- The edges of a graph, from either end. -/
structure EdgeTables where
  /-- The successors of each node. -/
  successors : Array (List Nat)
  /-- The predecessors of each node. -/
  predecessors : Array (List Nat)
  deriving DecidableEq

namespace EdgeTables

/-- The tables of a graph without edges. -/
def empty (size : Nat) : EdgeTables := ⟨.replicate size [], .replicate size []⟩

/-- The successors of a node. -/
def successorsOf (t : EdgeTables) (i : Nat) : List Nat := t.successors[i]?.getD []

/-- The predecessors of a node. -/
def predecessorsOf (t : EdgeTables) (j : Nat) : List Nat := t.predecessors[j]?.getD []

/-- Enters an edge, unless it leads to no node or is there already. -/
def addEdge (t : EdgeTables) (i j : Nat) : EdgeTables :=
  if t.successors.size ≤ j ∨ j ∈ t.successorsOf i then t
  else ⟨t.successors.modify i (· ++ [j]), t.predecessors.modify j (· ++ [i])⟩

/-- The tables hold edges from nodes below `n` only, each from both of its ends, and
    in order. -/
structure InStep (size n : Nat) (t : EdgeTables) : Prop where
  size_successors : t.successors.size = size
  size_predecessors : t.predecessors.size = size
  lt_of_mem : ∀ {i j}, j ∈ t.successorsOf i → i < n
  mem_predecessorsOf : ∀ {i j}, i ∈ t.predecessorsOf j ↔ j ∈ t.successorsOf i
  nodup_successorsOf : ∀ i, (t.successorsOf i).Nodup
  sorted_predecessorsOf : ∀ j, (t.predecessorsOf j).Pairwise (· < ·)

variable {t : EdgeTables} {size n i j : Nat}

theorem successorsOf_addEdge (hi : i < t.successors.size) (j k : Nat) :
    (t.addEdge i j).successorsOf k =
      if k = i ∧ j < t.successors.size ∧ j ∉ t.successorsOf i then t.successorsOf k ++ [j]
      else t.successorsOf k := by
  unfold addEdge
  split
  next hold => rw [if_neg fun hc => hold.elim (Nat.not_le.2 hc.2.1) hc.2.2]
  next hnew =>
    rw [not_or, Nat.not_le] at hnew
    simp only [hnew, not_false_eq_true, and_true]
    exact getD_modify hi k

theorem predecessorsOf_addEdge (hsize : t.predecessors.size = t.successors.size) (i j k : Nat) :
    (t.addEdge i j).predecessorsOf k =
      if k = j ∧ j < t.successors.size ∧ j ∉ t.successorsOf i then t.predecessorsOf k ++ [i]
      else t.predecessorsOf k := by
  unfold addEdge
  split
  next hold => rw [if_neg fun hc => hold.elim (Nat.not_le.2 hc.2.1) hc.2.2]
  next hnew =>
    rw [not_or, Nat.not_le] at hnew
    simp only [hnew, not_false_eq_true, and_true]
    exact getD_modify (hsize ▸ hnew.1) k

theorem size_addEdge (t : EdgeTables) (i j : Nat) :
    (t.addEdge i j).successors.size = t.successors.size ∧
      (t.addEdge i j).predecessors.size = t.predecessors.size := by
  unfold addEdge
  split <;> simp

theorem inStep_empty (size : Nat) : InStep size 0 (empty size) := by
  have hnil : ∀ k : Nat, (Array.replicate size ([] : List Nat))[k]?.getD [] = [] := by
    intro k
    by_cases hk : k < size <;> simp [hk]
  constructor <;> simp [empty, successorsOf, predecessorsOf, hnil]

namespace InStep

theorem mono (h : InStep size n t) {n' : Nat} (hn : n ≤ n') : InStep size n' t :=
  { h with lt_of_mem := fun hj => Nat.lt_of_lt_of_le (h.lt_of_mem hj) hn }

theorem successorsOf_eq_nil (h : InStep size n t) (hi : n ≤ i) : t.successorsOf i = [] :=
  List.eq_nil_iff_forall_not_mem.2 fun _ hj => Nat.not_lt.2 hi (h.lt_of_mem hj)

theorem addEdge (h : InStep size (n + 1) t) (hn : n < size) (j : Nat) :
    InStep size (n + 1) (t.addEdge n j) := by
  have hsucc := successorsOf_addEdge (h.size_successors ▸ hn) j
  have hpred := predecessorsOf_addEdge (h.size_predecessors.trans h.size_successors.symm) n j
  refine ⟨(size_addEdge t n j).1.trans h.size_successors,
    (size_addEdge t n j).2.trans h.size_predecessors, fun {i k} hk => ?_, fun {i k} => ?_,
    fun i => ?_, fun k => ?_⟩
  · rw [hsucc] at hk
    split at hk
    next hi => omega
    next => exact h.lt_of_mem hk
  · have := h.mem_predecessorsOf (i := i) (j := k)
    rw [hsucc, hpred]
    grind
  · rw [hsucc]
    split
    next hi =>
      obtain ⟨rfl, -, hfresh⟩ := hi
      rw [← List.concat_eq_append]
      exact (h.nodup_successorsOf i).concat hfresh
    next => exact h.nodup_successorsOf i
  · rw [hpred]
    split
    next hk =>
      obtain ⟨rfl, -, hfresh⟩ := hk
      -- The node is not a predecessor yet, so that those that are there are smaller.
      refine List.pairwise_append.2 ⟨h.sorted_predecessorsOf k, List.pairwise_singleton _ _, ?_⟩
      intro i hi _ hlast
      rw [List.mem_singleton.1 hlast]
      have hmem := h.mem_predecessorsOf.1 hi
      exact Nat.lt_of_le_of_ne (Nat.le_of_lt_succ (h.lt_of_mem hmem)) fun heq =>
        hfresh (heq ▸ hmem)
    next => exact h.sorted_predecessorsOf k

/-- Several edges from the last node are entered in order, but for those that lead to
    no node or repeat. -/
theorem foldl_addEdge (h : InStep size (n + 1) t) (hn : n < size) (places : List Nat) :
    InStep size (n + 1) (places.foldl (·.addEdge n ·) t) ∧
      ∀ k, (places.foldl (·.addEdge n ·) t).successorsOf k = if k = n then
        t.successorsOf n ++ ((places.filter (· < size)).filter (· ∉ t.successorsOf n)).eraseDups
      else t.successorsOf k := by
  induction places generalizing t with
  | nil =>
    refine ⟨h, fun k => ?_⟩
    split <;> simp_all
  | cons j places ih =>
    obtain ⟨hstep, hsucc⟩ := ih (h.addEdge hn j)
    refine ⟨hstep, fun k => ?_⟩
    have hadd := successorsOf_addEdge (h.size_successors ▸ hn) j
    rw [h.size_successors] at hadd
    rw [List.foldl_cons, hsucc, hadd, hadd]
    by_cases hk : k = n
    · subst hk
      by_cases hnew : j < size ∧ j ∉ t.successorsOf k
      · rw [if_pos rfl, if_pos rfl, if_pos ⟨rfl, hnew⟩, List.filter_filter, List.filter_filter,
          List.filter_cons_of_pos (by simpa using hnew.symm), List.eraseDups_cons,
          List.append_assoc, List.singleton_append, List.filter_filter]
        congr 3
        refine List.filter_congr fun c _ => ?_
        grind
      · rw [if_pos rfl, if_pos rfl, if_neg fun h => hnew h.2, List.filter_filter,
          List.filter_filter, List.filter_cons_of_neg (by simpa [and_comm] using hnew)]
    · simp [hk]

end InStep

end EdgeTables

namespace FlowGraph

/-- The predecessors of a node are in increasing order. -/
theorem sorted_predecessors (g : FlowGraph) (j : Nat) : (g.predecessors j).Pairwise (· < ·) :=
  List.pairwise_lt_range.filter _

/-- The tables of a flow graph. -/
def tables (g : FlowGraph) : EdgeTables :=
  ⟨g.edges, (Array.range g.size).map g.predecessors⟩

end FlowGraph

namespace Method

open EdgeTables

variable {m : Method} {g : FlowGraph}

/-- Enters the edges of instructions from an index on, one instruction after the
    other. -/
def enterEdges (m : Method) : List Instruction → Nat → EdgeTables → Except Error EdgeTables
  | [], _, t => .ok t
  | i :: is, n, t => do
    let places ← m.targets n i
    m.enterEdges is (n + 1) (places.foldl (·.addEdge n ·) t)

/-- The edges of the method, from either end. -/
def edgeTables (m : Method) : Except Error EdgeTables :=
  m.enterEdges m.code.toList 0 (.empty m.code.size)

/-- The edges of the last instructions are entered after those of the others. -/
theorem enterEdges_eq_ok (hg : m.flowGraph = .ok g) {l is : List Instruction} {t : EdgeTables}
    (hcode : m.code.toList = l ++ is) (h : InStep m.code.size l.length t)
    (hl : ∀ k < l.length, t.successorsOf k = g.successors k) :
    ∃ t', m.enterEdges is l.length t = .ok t' ∧ InStep m.code.size m.code.size t' ∧
      ∀ k, t'.successorsOf k = g.successors k := by
  have hsize : m.code.size = l.length + is.length := by simpa using congrArg List.length hcode
  induction is generalizing l t with
  | nil =>
    obtain hsize : m.code.size = l.length := by simpa using hsize
    refine ⟨t, rfl, hsize ▸ h, fun k => ?_⟩
    by_cases hk : k < l.length
    · exact hl k hk
    · rw [h.successorsOf_eq_nil (Nat.not_lt.1 hk)]
      refine (List.eq_nil_iff_forall_not_mem.2 fun j hj => hk ?_).symm
      rw [← hsize, ← size_flowGraph hg]
      exact FlowGraph.lt_size_of_mem_successors hj
  | cons i is ih =>
    have hlen : (l ++ [i]).length = l.length + 1 := by simp
    have hi : m.code[l.length]? = some i := by
      rw [← Array.getElem?_toList, hcode, List.getElem?_append_right (Nat.le_refl _)]
      simp
    obtain ⟨places, hplaces, hs⟩ := exists_targets hg hi
    obtain ⟨hstep, hsucc⟩ :=
      (h.mono (Nat.le_succ _)).foldl_addEdge (by simp [hsize]) places
    have hentered : ∀ k < (l ++ [i]).length,
        (places.foldl (·.addEdge l.length ·) t).successorsOf k = g.successors k := by
      intro k hk
      rw [hsucc]
      split
      next heq =>
        rw [heq, hs, h.successorsOf_eq_nil (Nat.le_refl _)]
        simp
      next hne => exact hl k (by omega)
    have hrest := ih (by simp [hcode]) (hlen.symm ▸ hstep) hentered
      (by simpa [Nat.add_assoc, Nat.add_comm 1] using hsize)
    rw [hlen] at hrest
    rw [enterEdges, hplaces]
    exact hrest

/-- What is entered in the end are the edges of the flow graph, in step. -/
theorem exists_edgeTables (hg : m.flowGraph = .ok g) :
    ∃ t, m.edgeTables = .ok t ∧ InStep m.code.size m.code.size t ∧
      ∀ k, t.successorsOf k = g.successors k :=
  enterEdges_eq_ok hg (l := []) rfl (inStep_empty _) (by simp)

theorem nodup_successors (hg : m.flowGraph = .ok g) (i : Nat) : (g.successors i).Nodup := by
  obtain ⟨t, -, hstep, hsucc⟩ := exists_edgeTables hg
  rw [← hsucc]
  exact hstep.nodup_successorsOf i

/-- The tables that are filled edge by edge are those of the flow graph. -/
theorem edgeTables_eq (hg : m.flowGraph = .ok g) : m.edgeTables = .ok g.tables := by
  obtain ⟨⟨succs, preds⟩, ht, hstep, hsucc⟩ := exists_edgeTables hg
  have hsize := size_flowGraph hg
  have hpred : ∀ j, predecessorsOf ⟨succs, preds⟩ j = g.predecessors j := fun j =>
    (hstep.sorted_predecessorsOf j).eq_of_mem_iff (g.sorted_predecessors j) fun i => by
      rw [hstep.mem_predecessorsOf, hsucc, FlowGraph.mem_predecessors]
  rw [ht, FlowGraph.tables]
  congr 2
  · refine Array.ext (hstep.size_successors.trans hsize.symm) fun i hi hi' => ?_
    simpa [successorsOf, FlowGraph.successors, show i < succs.size from hi, hi'] using hsucc i
  · refine Array.ext (by simp [hstep.size_predecessors, hsize]) fun j hj hj' => ?_
    simpa [predecessorsOf, show j < preds.size from hj] using hpred j

/-! ## The edges of a method -/

/-- The places to which an instruction at an index passes control: that of its
    label, if it is there, and then the next one. -/
def destinations (m : Method) (index : Nat) : Instruction → List Nat
  | .ret _ => []
  | .goto label => m.labels[label]?.toList
  | .branch _ label => m.labels[label]?.toList ++ [index + 1]
  | _ => [index + 1]

theorem eq_destinations_of_targets {index : Nat} {i : Instruction} {places : List Nat}
    (h : m.targets index i = .ok places) : places = m.destinations index i := by
  cases i with
  | goto label | branch _ label =>
    cases hl : m.labels[label]? <;>
      simp only [targets, Instruction.flow, resolve, hl, bind, Except.bind, pure,
        Except.pure] at h <;>
      cases h
    simp [destinations, hl]
  | _ =>
    cases h
    rfl

theorem eraseDups_sublist (xs : List Nat) : xs.eraseDups.Sublist xs := by
  induction hn : xs.length using Nat.strong_induction_on generalizing xs with
  | h n ih =>
    cases xs with
    | nil => exact List.Sublist.refl _
    | cons x xs =>
      rw [List.eraseDups_cons]
      have hlt : (xs.filter fun y => !y == x).length < n := by
        rw [← hn, List.length_cons]
        exact Nat.lt_succ_of_le (List.length_filter_le _ _)
      exact ((ih _ hlt _ rfl).trans List.filter_sublist).cons_cons x

/-- The successors of an instruction are the instructions among its destinations,
    in this order. -/
theorem successors_sublist (hg : m.flowGraph = .ok g) {i : Nat} {instr : Instruction}
    (hi : m.code[i]? = some instr) :
    (g.successors i).Sublist (m.destinations i instr) ∧
      ∀ j, j ∈ g.successors i ↔ j < m.code.size ∧ j ∈ m.destinations i instr := by
  obtain ⟨places, hplaces, hs⟩ := exists_targets hg hi
  rw [← eq_destinations_of_targets hplaces, hs]
  exact ⟨(eraseDups_sublist _).trans List.filter_sublist, fun j => by simp [and_comm]⟩

/-- A method has no flow graph exactly if an instruction jumps to a label that is not
    there, and the error names the label of the first one that does. Otherwise the
    successors of an instruction are the instructions among its destinations, in this
    order and each once, and the predecessors of a node are those that have it as a
    successor, in increasing order. Entering the edges one by one leads to the same
    tables. -/
theorem flow_graph_exact (m : Method) :
    ((∃ e, m.flowGraph = .error e) ↔ m.JumpsAstray) ∧
    (∀ e, m.flowGraph = .error e → ∃ l i r label, m.code.toList = l ++ i :: r ∧
      (∀ j ∈ l, ∀ label ∈ j.jump?, label ∈ m.labels) ∧ label ∈ i.jump? ∧ label ∉ m.labels ∧
      e = .malformed (.undefinedLabel m.name label)) ∧
    ∀ g, m.flowGraph = .ok g → g.size = m.code.size ∧
      (∀ i instr, m.code[i]? = some instr → (g.successors i).Nodup ∧
        (g.successors i).Sublist (m.destinations i instr) ∧
        ∀ j, j ∈ g.successors i ↔ j < m.code.size ∧ j ∈ m.destinations i instr) ∧
      (∀ j, (g.predecessors j).Pairwise (· < ·) ∧
        ∀ i, i ∈ g.predecessors j ↔ j ∈ g.successors i) ∧
      m.edgeTables = .ok g.tables := by
  refine ⟨⟨?_, fun h => ?_⟩, fun e => exists_first_of_flowGraph_eq_error, fun g hg => ?_⟩
  · rintro ⟨e, he⟩
    exact (flowGraph_eq_error he).1
  · rcases hg : m.flowGraph with e | g
    · exact ⟨e, rfl⟩
    · exact absurd h (exists_flowGraph_iff.1 ⟨g, hg⟩)
  · exact ⟨size_flowGraph hg, fun i instr hi => ⟨nodup_successors hg i, successors_sublist hg hi⟩,
      fun j => ⟨g.sorted_predecessors j, fun i => FlowGraph.mem_predecessors⟩, edgeTables_eq hg⟩

/-- A method with a branch to the next instruction, a jump to itself and a branch to
    the end of its code. -/
def crossedJumps : Method :=
  Method.empty "crossedJumps" true |>.declareParam "n"
    |>.push (.branch (.single (.var "n")) "next")
    |>.label "next"
    |>.push (.branch (.single (.var "n")) "end")
    |>.label "self"
    |>.push (.goto "self")
    |>.push (.ret none)
    |>.label "end"

/-- The same method with two jumps more, to labels that are not there. -/
def strayJumps : Method :=
  crossedJumps |>.push (.goto "nowhere") |>.push (.branch (.single (.var "n")) "lost")

theorem flow_graph_exact_crossedJumps :
    crossedJumps.flowGraph = .ok ⟨#[[1], [2], [2], []]⟩ ∧
      crossedJumps.edgeTables = .ok ⟨#[[1], [2], [2], []], #[[], [0], [1, 2], []]⟩ ∧
      strayJumps.flowGraph = .error (.malformed (.undefinedLabel "crossedJumps" "nowhere")) ∧
      ∃ l i r, strayJumps.code.toList = l ++ i :: r ∧ "nowhere" ∈ i.jump? ∧
        ∀ j ∈ l, ∀ label ∈ j.jump?, label ∈ strayJumps.labels := by
  have hg : crossedJumps.flowGraph = .ok ⟨#[[1], [2], [2], []]⟩ := by rfl
  have htables : (FlowGraph.mk #[[1], [2], [2], []]).tables =
      ⟨#[[1], [2], [2], []], #[[], [0], [1, 2], []]⟩ := by decide +kernel
  have hstray : strayJumps.flowGraph =
      .error (.malformed (.undefinedLabel "crossedJumps" "nowhere")) := by rfl
  refine ⟨hg, htables ▸ ((flow_graph_exact crossedJumps).2.2 _ hg).2.2.2, hstray, ?_⟩
  obtain ⟨l, i, r, label, hcode, hl, hlabel, -, he⟩ := (flow_graph_exact strayJumps).2.1 _ hstray
  cases he
  exact ⟨l, i, r, hcode, hlabel, hl⟩

end Method

end Midend
