import Midend.Tree.Forest

/-!
# Walks

The nodes of a subtree in preorder: a node comes before its children, and what
lies below a child comes before the next child. The walk keeps the nodes that
are still to be visited on a stack; each step visits the top one and puts its
children in its place. It takes as many steps as the subtree has nodes.
-/

namespace Midend.Forest

/-- The number of nodes down to depth `n` below and including a node. -/
def countWithin (f : Forest) : Nat → NodeId → Nat
  | 0, _ => 0
  | n + 1, id => 1 + ((f.children id).map (f.countWithin n)).foldr (· + ·) 0

/-- The number of nodes below and including a node. No path downwards through
    different nodes is longer than the store. -/
def count (f : Forest) (id : NodeId) : Nat := f.countWithin f.size id

/-- The first `n` nodes that are visited from a stack. -/
def walk (f : Forest) : Nat → List NodeId → List NodeId
  | 0, _ => []
  | _ + 1, [] => []
  | n + 1, id :: stack => id :: f.walk n (f.children id ++ stack)

/-- The node and all nodes below it, in preorder. -/
def preorder (f : Forest) (id : NodeId) : List NodeId := f.walk (f.count id) [id]

/-- The nodes of the program, in preorder. -/
def program (f : Forest) : List NodeId := f.preorder f.root

end Midend.Forest
