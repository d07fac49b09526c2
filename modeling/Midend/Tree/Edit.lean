import Midend.Tree.Attribute
import Midend.Tree.Forest

/-!
# Edits

An edit changes a forest and gives a result, or stops with an error; what it
had changed up to then stays changed. The basic edits add a node, put a node
among the children of another (`push`, `insert`), put a node in the place of
another (`replace`), cut a node out (`delete`), put several nodes in the place
of one (`splice`) and set an attribute.

A node is cut from its old parent before it gets a new one. An edit that would
put a node below itself is refused, and so is one that names a node that does
not exist.
-/

namespace Midend

/-- A change of a forest with a result, or an error and what was changed up to
    it. -/
abbrev Edit := EStateM Error Forest

namespace Edit

/-- Stops because of a defect. -/
def refuse {α : Type} (defect : Defect) : Edit α := throw (.malformed defect)

/-- Stops unless there is such a node. -/
def require (id : NodeId) : Edit Unit := do
  if !(← get).contains id then throw (.missingNode id)

/-- Asks the forest, or stops with its error. -/
def ask {α : Type} (question : Forest → Except Error α) : Edit α := do
  match question (← get) with
  | .ok a => return a
  | .error e => throw e

/-- Hangs the nodes from `parent`, each after those that are there already. -/
def adopt (parent : NodeId) : List NodeId → Edit Unit
  | [] => return
  | c :: cs => do
    require c
    modify fun f => ((f.detach c).setParent c (some parent)).mapChildren parent (· ++ [c])
    adopt parent cs

/-- Adds a detached node with the given children, which leave their parents. -/
def add (kind : Kind) (children : List NodeId) : Edit NodeId := do
  let id := (← get).size
  modify (·.grow kind)
  adopt id children
  return id

/-- Adds a detached node without children. -/
def leaf (kind : Kind) : Edit NodeId := add kind []

/-- Puts a node among the children of another, at a place of the list that is
    left when the node has been cut from its old parent. -/
def insert (parent : NodeId) (index : Nat) (child : NodeId) : Edit Unit := do
  if (← get).isAbove child parent then refuse (.insertAbove child parent)
  require parent
  require child
  modify (·.detach child)
  let count := ((← get).children parent).length
  if count < index then refuse (.insertPastEnd index parent count)
  modify (·.link parent index child)

/-- Puts a node after the children of another. -/
def push (parent child : NodeId) : Edit Unit := do
  require parent
  require child
  let f ← get
  let count := (f.children parent).length
  insert parent (if f.parent? child = some parent then count - 1 else count) child

/-- Puts `new` in the place of `old`, which is cut out. The new node may come
    from below the old one. A detached node has no place to give, except that of
    the root. -/
def replace (old new : NodeId) : Edit Unit := do
  if old = new then return
  if (← get).isAbove new old then refuse (.replaceByAncestor old new)
  require old
  require new
  modify (·.detach new)
  let f ← get
  match f.parent? old, f.indexOf? old with
  | none, _ => if old = f.root then set { f with root := new }
  | some _, none => refuse (.unlistedChild old)
  | some p, some i =>
    set (((f.mapChildren p (·.set i new)).setParent new (some p)).setParent old none)

/-- Cuts a node out. -/
def delete (id : NodeId) : Edit Unit := do
  if id = (← get).root then refuse .deleteRoot
  require id
  modify (·.detach id)

/-- Puts the given nodes, in order, in the place of `target`, which is cut
    out. -/
def splice (target : NodeId) (news : List NodeId) : Edit Unit := do
  require target
  let f ← get
  match f.parent? target, news.find? (f.isAbove · target) with
  | none, _ => refuse (.spliceDetached target)
  | some _, some n => refuse (.spliceByAncestor n target)
  | some p, none =>
    news.forM require
    -- Nodes that leave the same child list may move the target.
    modify fun f => news.foldl Forest.detach f
    match (← get).indexOf? target with
    | none => refuse (.unlistedChild target)
    | some i =>
      modify fun f => f.mapChildren p fun cs => cs.take i ++ news ++ cs.drop (i + 1)
      modify fun f => news.foldl (fun f n => f.setParent n (some p)) f
      modify (·.setParent target none)

/-- Sets the attribute of a name from its text. -/
def setAttribute (id : NodeId) (name value : String) : Edit Unit := do
  let f ← get
  match f.kind? id with
  | none => throw (.missingNode id)
  | some k =>
    let k ← ask fun _ => k.setAttribute name value
    set (f.setKind id k)

/-- Puts a new node that holds the literal in the place of a node. -/
def replaceByLiteral (id : NodeId) (l : Literal) : Edit Unit := do
  replace id (← leaf (.ofLiteral l))

/-- Visits the nodes in order and tells whether any visit made a change. -/
def visitAll (visit : NodeId → Edit Bool) : List NodeId → Edit Bool
  | [] => return false
  | id :: ids => do
    let here ← visit id
    let there ← visitAll visit ids
    return here || there

end Edit

end Midend
