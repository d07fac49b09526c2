import Mathlib.Data.List.Basic
import Midend.Tree.Walk

/-!
# Reading a tree

A tree can be *read* at a node of a forest when the kinds and the child lists of
the forest, from this node downwards, are those of the tree. A node reads as at
most one tree, and what a tree reads as depends only on the entries of its nodes
(`Reads.congr`). The preorder of a node lists the nodes of its tree
(`Reads.preorder_eq`).
-/

namespace Midend

/-- A syntax tree, with the numbers of its nodes. -/
inductive Tree
  | node (root : NodeId) (kind : Kind) (children : List Tree)

namespace Tree

/-- What holds of a node if it holds of its children holds of all trees. -/
@[elab_as_elim, induction_eliminator]
theorem induction {motive : Tree → Prop}
    (node : ∀ i k cs, (∀ c ∈ cs, motive c) → motive (node i k cs)) (t : Tree) : motive t :=
  @Tree.rec motive (fun ts => ∀ c ∈ ts, motive c) node (fun _ h => absurd h List.not_mem_nil)
    (fun _ _ hc hcs _ h => (List.mem_cons.1 h).elim (fun h => h ▸ hc) (hcs _)) t

/-- The number of the root. -/
def root : Tree → NodeId
  | node i _ _ => i

/-- The kind of the root. -/
def kind : Tree → Kind
  | node _ k _ => k

/-- The trees below the root, in order. -/
def children : Tree → List Tree
  | node _ _ cs => cs

/-- The literal that the tree is. -/
def literal? (t : Tree) : Option Literal := t.kind.literal?

@[simp] theorem root_node (i : NodeId) (k : Kind) (cs : List Tree) : (node i k cs).root = i := rfl

@[simp] theorem kind_node (i : NodeId) (k : Kind) (cs : List Tree) : (node i k cs).kind = k := rfl

@[simp] theorem children_node (i : NodeId) (k : Kind) (cs : List Tree) :
    (node i k cs).children = cs := rfl

mutual

/-- The tree and all trees below it, in preorder. -/
def subtrees : Tree → List Tree
  | node i k cs => node i k cs :: subtreesOf cs

/-- The subtrees of several trees, one tree after the other. -/
def subtreesOf : List Tree → List Tree
  | [] => []
  | t :: ts => t.subtrees ++ subtreesOf ts

end

theorem subtreesOf_eq (ts : List Tree) : subtreesOf ts = ts.flatMap subtrees := by
  induction ts with
  | nil => rfl
  | cons t ts ih => rw [subtreesOf, ih, List.flatMap_cons]

@[simp] theorem subtrees_node (i : NodeId) (k : Kind) (cs : List Tree) :
    (node i k cs).subtrees = node i k cs :: cs.flatMap subtrees := by
  rw [subtrees, subtreesOf_eq]

/-- The numbers of the nodes, in preorder. -/
def ids (t : Tree) : List NodeId := t.subtrees.map root

@[simp] theorem ids_node (i : NodeId) (k : Kind) (cs : List Tree) :
    (node i k cs).ids = i :: cs.flatMap ids := by
  simp only [ids, subtrees_node, List.map_cons, root_node, List.map_flatMap]
  rfl

theorem self_mem_subtrees (t : Tree) : t ∈ t.subtrees := by
  cases t
  simp

/-- What is below a subtree is a subtree. -/
theorem mem_subtrees_of_mem_children {t u c : Tree} (hu : u ∈ t.subtrees) (hc : c ∈ u.children) :
    c ∈ t.subtrees := by
  induction t with
  | node i k cs ih =>
    rw [subtrees_node, List.mem_cons, List.mem_flatMap] at hu ⊢
    rcases hu with rfl | ⟨d, hd, hu⟩
    · exact .inr ⟨c, hc, c.self_mem_subtrees⟩
    · exact .inr ⟨d, hd, ih d hd hu⟩

theorem root_mem_ids (t : Tree) : t.root ∈ t.ids :=
  List.mem_map_of_mem t.self_mem_subtrees

theorem length_ids_pos (t : Tree) : 0 < t.ids.length :=
  List.length_pos_of_mem t.root_mem_ids

/-- A tree has no more nodes than a list that it belongs to. -/
theorem length_ids_le {ts : List Tree} {t : Tree} (h : t ∈ ts) :
    t.ids.length ≤ (ts.flatMap ids).length := by
  obtain ⟨l, r, rfl⟩ := List.append_of_mem h
  simp only [List.flatMap_append, List.flatMap_cons, List.length_append]
  omega

end Tree

namespace Forest

open Midend.Tree

/-- The tree can be read at its root. -/
inductive Reads (f : Forest) : Tree → Prop
  | node {i : NodeId} {k : Kind} {cs : List Tree} :
    f.kind? i = some k → f.children i = cs.map Tree.root → (∀ c ∈ cs, f.Reads c) →
    f.Reads (.node i k cs)

namespace Reads

variable {f f' : Forest} {t u : Tree}

theorem kind?_eq (h : f.Reads t) : f.kind? t.root = some t.kind := by
  cases h with
  | node hk _ _ => exact hk

theorem children_eq (h : f.Reads t) : f.children t.root = t.children.map Tree.root := by
  cases h with
  | node _ hc _ => exact hc

theorem of_mem_children (h : f.Reads t) (hu : u ∈ t.children) : f.Reads u := by
  cases h with
  | node _ _ hcs => exact hcs u hu

theorem of_mem_subtrees (h : f.Reads t) (hu : u ∈ t.subtrees) : f.Reads u := by
  induction h with
  | @node i k cs hk hc hcs ih =>
    rw [subtrees_node, List.mem_cons, List.mem_flatMap] at hu
    rcases hu with rfl | ⟨c, hmem, hu⟩
    · exact .node hk hc hcs
    · exact ih c hmem hu

/-- A tree can be read where each of its nodes has its kind and its children. -/
theorem iff_forall_subtrees : f.Reads t ↔ ∀ u ∈ t.subtrees,
    f.kind? u.root = some u.kind ∧ f.children u.root = u.children.map Tree.root := by
  refine ⟨fun h u hu => ⟨(h.of_mem_subtrees hu).kind?_eq, (h.of_mem_subtrees hu).children_eq⟩, ?_⟩
  induction t with
  | node i k cs ih =>
    intro h
    rw [subtrees_node, List.forall_mem_cons] at h
    refine .node h.1.1 h.1.2 fun c hc => ih c hc fun u hu => h.2 u ?_
    exact List.mem_flatMap.2 ⟨c, hc, hu⟩

instance : Decidable (f.Reads t) := decidable_of_iff' _ iff_forall_subtrees

theorem contains_of_mem_ids (h : f.Reads t) {i : NodeId} (hi : i ∈ t.ids) : f.contains i := by
  obtain ⟨u, hu, rfl⟩ := List.mem_map.1 hi
  rw [← isSome_kind?_iff, (h.of_mem_subtrees hu).kind?_eq]
  rfl

theorem literal?_eq (h : f.Reads t) : f.literal? t.root = t.literal? := by
  rw [Forest.literal?, h.kind?_eq, Option.bind_some, Tree.literal?]

theorem child_eq {i : NodeId} {k : Kind} {cs : List Tree} (h : f.Reads (.node i k cs)) (n : Nat) :
    f.child i n = match cs[n]? with
      | some c => .ok c.root
      | none => .error (.malformed (.missingChild k.label i n)) := by
  have hc : f.children i = cs.map Tree.root := h.children_eq
  have hk : f.kind? i = some k := h.kind?_eq
  rw [child, hc, hk, List.getElem?_map]
  cases cs[n]? <;> rfl

/-- What is read depends only on the entries of the nodes that are read. -/
theorem congr (h : f.Reads t)
    (hf : ∀ i ∈ t.ids, f'.kind? i = f.kind? i ∧ f'.children i = f.children i) : f'.Reads t := by
  induction h with
  | @node i k cs hk hc _ ih =>
    rw [ids_node] at hf
    obtain ⟨hki, hci⟩ := hf i List.mem_cons_self
    refine .node (hki.trans hk) (hci.trans hc) fun c hmem => ih c hmem fun j hj => ?_
    exact hf j (List.mem_cons_of_mem _ (List.mem_flatMap.2 ⟨c, hmem, hj⟩))

/-- A node reads as at most one tree. -/
theorem eq_of_root_eq (ht : f.Reads t) (hu : f.Reads u) (h : t.root = u.root) : t = u := by
  induction ht generalizing u with
  | @node i k cs hk hc hcs ih =>
    obtain ⟨j, l, ds⟩ := u
    obtain rfl : i = j := h
    obtain rfl : k = l := Option.some.inj (hk.symm.trans hu.kind?_eq)
    have hroots : cs.map Tree.root = ds.map Tree.root := hc.symm.trans hu.children_eq
    have hds : ∀ d ∈ ds, f.Reads d := fun d => hu.of_mem_children
    congr 1
    clear hk hc hcs hu
    -- The lists have the same roots, so each child of one reads as that of the other.
    induction cs generalizing ds with
    | nil => exact (List.map_eq_nil_iff.1 hroots.symm).symm
    | cons c cs ihcs =>
      cases ds with
      | nil => simp at hroots
      | cons d ds =>
        obtain ⟨hroot, hroots⟩ := List.cons.inj hroots
        rw [ih c List.mem_cons_self (hds d List.mem_cons_self) hroot,
          ihcs (fun c hc => ih c (List.mem_cons_of_mem _ hc)) ds hroots fun d hd =>
            hds d (List.mem_cons_of_mem _ hd)]

/-! ## Preorder -/

theorem countWithin_eq (h : f.Reads t) {n : Nat} (hn : t.ids.length ≤ n) :
    f.countWithin n t.root = t.ids.length := by
  induction h generalizing n with
  | @node i k cs hk hc _ ih =>
    cases n with
    | zero => simp at hn
    | succ n =>
      rw [ids_node, List.length_cons] at hn ⊢
      have hcs : cs.map (f.countWithin n ∘ Tree.root) = cs.map (List.length ∘ ids) := by
        refine List.map_congr_left fun c hmem => ih c hmem ?_
        exact Nat.le_trans (length_ids_le hmem) (Nat.le_of_succ_le_succ hn)
      rw [root_node, countWithin, hc, List.map_map, hcs, List.length_flatMap, Nat.add_comm,
        List.sum_eq_foldr]
      rfl

/-- A walk visits the trees on the stack one after the other, until it has taken all its
    steps or there is no tree left. -/
theorem walk_eq_take {ts : List Tree} (h : ∀ t ∈ ts, f.Reads t) (n : Nat) :
    f.walk n (ts.map Tree.root) = (ts.flatMap ids).take n := by
  induction n generalizing ts with
  | zero => rw [walk, List.take_zero]
  | succ n ih =>
    cases ts with
    | nil => rfl
    | cons t ts =>
      obtain ⟨i, k, cs⟩ := t
      have ht := h _ List.mem_cons_self
      have hrest : ∀ u ∈ cs ++ ts, f.Reads u := by
        intro u hu
        rcases List.mem_append.1 hu with hu | hu
        · exact ht.of_mem_children hu
        · exact h u (List.mem_cons_of_mem _ hu)
      rw [List.map_cons, root_node, walk, show f.children i = cs.map Tree.root from ht.children_eq,
        ← List.map_append, ih hrest, List.flatMap_cons, ids_node, List.cons_append,
        List.take_succ_cons, List.flatMap_append]

theorem walk_root_eq_take (h : f.Reads t) (n : Nat) : f.walk n [t.root] = t.ids.take n := by
  have hts : ∀ u ∈ [t], f.Reads u := fun u hu => List.mem_singleton.1 hu ▸ h
  simpa using walk_eq_take hts n

/-- The preorder of a node lists the nodes of its tree. -/
theorem preorder_eq (h : f.Reads t) (hn : t.ids.length ≤ f.size) : f.preorder t.root = t.ids := by
  rw [preorder, count, h.countWithin_eq hn, h.walk_root_eq_take, List.take_length]

end Reads

end Forest

end Midend
