import Midend.Code.Method

/-!
# Flow graphs

The instructions of a method with the ways control may pass between them. Node
`i` is the instruction at index `i`. Control that leaves the method, by a
return, past the last instruction or by a jump to a label at the end, goes to no
node.
-/

namespace Midend

/-- The flow of control in a method. -/
structure FlowGraph where
  /-- The successors of each node. -/
  edges : Array (List Nat)
  deriving DecidableEq, Repr

namespace FlowGraph

/-- The number of nodes. -/
def size (g : FlowGraph) : Nat := g.edges.size

/-- The nodes to which control may pass from a node. -/
def successors (g : FlowGraph) (i : Nat) : List Nat := g.edges[i]?.getD []

/-- The nodes from which control may pass to a node, in increasing order. -/
def predecessors (g : FlowGraph) (j : Nat) : List Nat :=
  (List.range g.size).filter fun i => j ∈ g.successors i

/-- A node without an entry has no successors. -/
theorem lt_size_of_mem_successors {g : FlowGraph} {i j : Nat} (h : j ∈ g.successors i) :
    i < g.size := by
  refine Nat.lt_of_not_le fun hi => ?_
  rw [successors, Array.getElem?_eq_none hi] at h
  exact List.not_mem_nil h

/-- The predecessors of a node are the nodes that have it as a successor. -/
@[simp] theorem mem_predecessors {g : FlowGraph} {i j : Nat} :
    i ∈ g.predecessors j ↔ j ∈ g.successors i := by
  simp only [predecessors, List.mem_filter, List.mem_range, decide_eq_true_eq]
  exact ⟨And.right, fun h => ⟨lt_size_of_mem_successors h, h⟩⟩

end FlowGraph

namespace Method

/-- The place that a label marks. -/
def resolve (m : Method) (label : String) : Except Error Nat :=
  match m.labels[label]? with
  | some i => .ok i
  | none => .error (.malformed (.undefinedLabel m.name label))

/-- The places to which control may pass from the instruction at an index: the
    target of a jump first, then the next instruction. -/
def targets (m : Method) (index : Nat) (i : Instruction) : Except Error (List Nat) := do
  match i.flow with
  | .leave => return []
  | .jump label => return [← m.resolve label]
  | .fork label => return [← m.resolve label, index + 1]
  | .next => return [index + 1]

/-- The flow graph of a method. A jump to a label that is not there is an
    error. -/
def flowGraph (m : Method) : Except Error FlowGraph := do
  let edges ← m.code.toList.zipIdx.mapM fun (i, index) => do
    let places ← m.targets index i
    return (places.filter (· < m.code.size)).eraseDups
  return { edges := edges.toArray }

end Method

end Midend
