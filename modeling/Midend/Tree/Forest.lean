import Midend.Tree.Kind

/-!
# Forests

The nodes of a syntax tree are numbered and kept in one store. Each node knows
its kind, its parent and its children, in order, and one node is the root of
the program. A node that is cut out of the tree stays in the store, detached,
together with what lies below it, so that the store holds a forest and a number
never loses its meaning.

A node is a child of its parent when the forest is *consistent*; the operations
of `Midend.Tree.Edit` are the ones that keep it so. This file has what they are
made of: reading a forest, and changing single entries of it.

Reading is total: a number without a node has no kind, no parent and no
children.
-/

namespace Midend

/-- The number of a node. -/
abbrev NodeId := Nat

/-- An entry of the store. -/
structure Node where
  /-- What the node stands for. -/
  kind : Kind
  /-- The node it hangs from. -/
  parent : Option NodeId := none
  /-- The nodes that hang from it, in order. -/
  children : List NodeId := []
  deriving DecidableEq, Repr

/-- A store of nodes, one of which is the root of the program. -/
structure Forest where
  /-- The nodes, by number. -/
  nodes : Array Node
  /-- The root of the program. -/
  root : NodeId
  deriving DecidableEq, Repr

namespace Forest

/-- The forest of one node, which is the root. -/
def single (kind : Kind) : Forest where
  nodes := #[{ kind }]
  root := 0

/-! ## Reading -/

/-- The number of nodes, attached or not. -/
def size (f : Forest) : Nat := f.nodes.size

/-- Whether there is a node of this number. -/
def contains (f : Forest) (id : NodeId) : Bool := id < f.size

theorem contains_iff {f : Forest} {id : NodeId} : f.contains id ↔ id < f.size :=
  decide_eq_true_iff

/-- The kind of a node. -/
def kind? (f : Forest) (id : NodeId) : Option Kind := f.nodes[id]?.map Node.kind

/-- The parent of a node. -/
def parent? (f : Forest) (id : NodeId) : Option NodeId := f.nodes[id]?.bind Node.parent

/-- The children of a node. -/
def children (f : Forest) (id : NodeId) : List NodeId := (f.nodes[id]?.map Node.children).getD []

/-- The literal that a node holds. -/
def literal? (f : Forest) (id : NodeId) : Option Literal := (f.kind? id).bind Kind.literal?

/-- The first place of a node among the children of its parent. -/
def indexOf? (f : Forest) (id : NodeId) : Option Nat :=
  (f.parent? id).bind fun p => (f.children p).idxOf? id

/-- The child at a place, which the kind of the node promises. -/
def child (f : Forest) (id : NodeId) (index : Nat) : Except Error NodeId :=
  match (f.children id)[index]?, f.kind? id with
  | some c, _ => .ok c
  | none, some k => .error (.malformed (.missingChild k.label id index))
  | none, none => .error (.missingNode id)

/-- The node, its parent, the parent of that and so on, at most `n` of them. -/
def lineageWithin (f : Forest) : Nat → NodeId → List NodeId
  | 0, _ => []
  | n + 1, id =>
    id :: match f.parent? id with
      | some p => f.lineageWithin n p
      | none => []

/-- The node and all nodes above it, nearest first. No chain of different nodes
    is longer than the store. -/
def lineage (f : Forest) (id : NodeId) : List NodeId := f.lineageWithin (f.size + 1) id

/-- Whether a node is another one or lies above it. -/
def isAbove (f : Forest) (above id : NodeId) : Bool := above ∈ f.lineage id

theorem isAbove_iff {f : Forest} {above id : NodeId} : f.isAbove above id ↔ above ∈ f.lineage id :=
  decide_eq_true_iff

/-- Whether a node belongs to the program: it is the root or lies below it. -/
def inProgram (f : Forest) (id : NodeId) : Bool := f.isAbove f.root id

/-! ## Changing entries -/

/-- The forest with one entry changed. -/
def modify (f : Forest) (id : NodeId) (change : Node → Node) : Forest :=
  { f with nodes := f.nodes.modify id change }

/-- The forest with one more node, which is detached. -/
def grow (f : Forest) (kind : Kind) : Forest :=
  { f with nodes := f.nodes.push { kind } }

/-- The forest with another kind of a node. -/
def setKind (f : Forest) (id : NodeId) (kind : Kind) : Forest :=
  f.modify id fun n => { n with kind }

/-- The forest with another parent of a node; no child list changes. -/
def setParent (f : Forest) (id : NodeId) (parent : Option NodeId) : Forest :=
  f.modify id fun n => { n with parent }

/-- The forest with the child list of a node changed; no parent changes. -/
def mapChildren (f : Forest) (id : NodeId) (change : List NodeId → List NodeId) : Forest :=
  f.modify id fun n => { n with children := change n.children }

/-- The forest with a node cut from its parent. -/
def detach (f : Forest) (id : NodeId) : Forest :=
  match f.parent? id with
  | some p => (f.setParent id none).mapChildren p fun cs => cs.filter (· ≠ id)
  | none => f

/-- The forest with a node put among the children of another, at a place. -/
def link (f : Forest) (parent : NodeId) (index : Nat) (child : NodeId) : Forest :=
  (f.mapChildren parent fun cs => cs.insertIdx index child).setParent child (some parent)

/-! ## What a change does to what is read

A change of the kind, the parent or the children of one node shows in what was
changed of that node, and nowhere else. -/

variable (f : Forest) (i j : NodeId)

@[simp] theorem size_modify (change : Node → Node) : (f.modify i change).size = f.size := by
  simp [modify, size]

@[simp] theorem root_modify (change : Node → Node) : (f.modify i change).root = f.root := rfl

theorem getElem?_nodes_modify (change : Node → Node) :
    (f.modify i change).nodes[j]? = if i = j then f.nodes[j]?.map change else f.nodes[j]? :=
  Array.getElem?_modify

/-- A number has a kind exactly if there is such a node. -/
theorem isSome_kind?_iff : (f.kind? i).isSome ↔ f.contains i := by
  simp [kind?, contains_iff, size]

@[simp] theorem kind?_setKind (kind : Kind) :
    (f.setKind i kind).kind? j = if i = j ∧ f.contains j then some kind else f.kind? j := by
  simp only [kind?, setKind, getElem?_nodes_modify, contains_iff, size]
  by_cases h : i = j <;> by_cases hj : j < f.nodes.size <;> simp [h, hj]

@[simp] theorem parent?_setKind (kind : Kind) : (f.setKind i kind).parent? j = f.parent? j := by
  simp only [parent?, setKind, getElem?_nodes_modify]
  split <;> cases f.nodes[j]? <;> rfl

@[simp] theorem children_setKind (kind : Kind) :
    (f.setKind i kind).children j = f.children j := by
  simp only [children, setKind, getElem?_nodes_modify]
  split <;> cases f.nodes[j]? <;> rfl

@[simp] theorem kind?_setParent (parent : Option NodeId) :
    (f.setParent i parent).kind? j = f.kind? j := by
  simp only [kind?, setParent, getElem?_nodes_modify]
  split <;> cases f.nodes[j]? <;> rfl

@[simp] theorem parent?_setParent (parent : Option NodeId) :
    (f.setParent i parent).parent? j = if i = j ∧ f.contains j then parent else f.parent? j := by
  simp only [parent?, setParent, getElem?_nodes_modify, contains_iff, size]
  by_cases h : i = j <;> by_cases hj : j < f.nodes.size <;> simp [h, hj]

@[simp] theorem children_setParent (parent : Option NodeId) :
    (f.setParent i parent).children j = f.children j := by
  simp only [children, setParent, getElem?_nodes_modify]
  split <;> cases f.nodes[j]? <;> rfl

@[simp] theorem kind?_mapChildren (change : List NodeId → List NodeId) :
    (f.mapChildren i change).kind? j = f.kind? j := by
  simp only [kind?, mapChildren, getElem?_nodes_modify]
  split <;> cases f.nodes[j]? <;> rfl

@[simp] theorem parent?_mapChildren (change : List NodeId → List NodeId) :
    (f.mapChildren i change).parent? j = f.parent? j := by
  simp only [parent?, mapChildren, getElem?_nodes_modify]
  split <;> cases f.nodes[j]? <;> rfl

@[simp] theorem children_mapChildren (change : List NodeId → List NodeId) :
    (f.mapChildren i change).children j =
      if i = j ∧ f.contains j then change (f.children j) else f.children j := by
  simp only [children, mapChildren, getElem?_nodes_modify, contains_iff, size]
  by_cases h : i = j <;> by_cases hj : j < f.nodes.size <;> simp [h, hj]

theorem contains_of_parent? {p : NodeId} (h : f.parent? i = some p) : f.contains i := by
  rw [← isSome_kind?_iff]
  rw [parent?] at h
  rw [kind?]
  cases hn : f.nodes[i]? with
  | none => simp [hn] at h
  | some n => rfl

theorem parent?_eq_none (h : ¬ f.contains i) : f.parent? i = none := by
  cases hp : f.parent? i with
  | none => rfl
  | some p => exact absurd (contains_of_parent? f i hp) h

theorem children_eq_nil (h : ¬ f.contains i) : f.children i = [] := by
  have hi : f.nodes.size ≤ i := by simpa [contains_iff, size] using h
  simp [children, Array.getElem?_eq_none hi]

@[simp] theorem size_detach : (f.detach i).size = f.size := by
  rw [detach]
  split <;> simp [setParent, mapChildren]

@[simp] theorem root_detach : (f.detach i).root = f.root := by
  rw [detach]
  split <;> rfl

@[simp] theorem kind?_detach : (f.detach i).kind? j = f.kind? j := by
  rw [detach]
  split <;> simp

/-- A node that was cut has no parent; the others have the parent they had. -/
@[simp] theorem parent?_detach : (f.detach i).parent? j = if i = j then none else f.parent? j := by
  rw [detach]
  split
  next p hp =>
    by_cases hij : i = j
    · subst hij
      simp [contains_of_parent? f i hp]
    · simp [hij]
  next hp =>
    by_cases hij : i = j
    · simp [← hij, hp]
    · simp [hij]

/-- A node that was cut is gone from the children of its parent; the other child
    lists are as they were. -/
@[simp] theorem children_detach :
    (f.detach i).children j =
      if f.parent? i = some j then (f.children j).filter (· ≠ i) else f.children j := by
  rw [detach]
  split
  next p hp =>
    by_cases hpj : p = j
    · subst hpj
      by_cases hc : f.contains p
      · have hc' : (f.setParent i none).contains p := by
          simpa [contains_iff, setParent] using hc
        simp [hp, hc']
      · simp [hp, children_eq_nil f p hc]
    · simp [hp, hpj]
  next hp => simp [hp]

@[simp] theorem size_grow (kind : Kind) : (f.grow kind).size = f.size + 1 := by
  simp [grow, size]

@[simp] theorem kind?_grow (kind : Kind) :
    (f.grow kind).kind? j = if j = f.size then some kind else f.kind? j := by
  simp only [kind?, grow, size, Array.getElem?_push]
  split <;> simp [*]

/-- A new node has no parent. -/
@[simp] theorem parent?_grow (kind : Kind) : (f.grow kind).parent? j = f.parent? j := by
  simp only [parent?, grow, Array.getElem?_push]
  split <;> simp [*]

/-- A new node has no children. -/
@[simp] theorem children_grow (kind : Kind) : (f.grow kind).children j = f.children j := by
  simp only [children, grow, Array.getElem?_push]
  split <;> simp [*]

end Forest

end Midend
