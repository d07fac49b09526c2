import Midend.Constant.Rounds
import Midend.Proofs.Tree.Context

/-!
# Weights

The *weight* of a tree is the number of its nodes, identifiers counted twice. That of
the program is the weight that bounds the rounds (`Carries.weight_eq`). A tree gets
lighter when something lighter is in a place of it (`Context.weight_plug_lt`).
-/

namespace Midend

/-- Nodes of this kind count twice. -/
def Kind.countsTwice : Kind → Bool
  | identifier _ => true
  | _ => false

/-- What a node of this kind counts. -/
def Kind.weight (k : Kind) : Nat := 1 + k.countsTwice.toNat

theorem Kind.one_le_weight (k : Kind) : 1 ≤ k.weight :=
  Nat.le_add_right 1 _

namespace Tree

/-- The number of nodes in the trees, identifiers counted twice. -/
def weightOf (ts : List Tree) : Nat :=
  (ts.flatMap subtrees).length + (ts.flatMap subtrees).countP fun u => u.kind.countsTwice

/-- The number of nodes, identifiers counted twice. -/
def weight (t : Tree) : Nat := weightOf [t]

@[simp] theorem weightOf_nil : weightOf [] = 0 := rfl

@[simp] theorem weightOf_append (ts us : List Tree) :
    weightOf (ts ++ us) = weightOf ts + weightOf us := by
  simp only [weightOf, List.flatMap_append, List.length_append, List.countP_append]
  omega

@[simp] theorem weightOf_cons (t : Tree) (ts : List Tree) :
    weightOf (t :: ts) = t.weight + weightOf ts :=
  weightOf_append [t] ts

@[simp] theorem weight_node (i : NodeId) (k : Kind) (cs : List Tree) :
    (node i k cs).weight = k.weight + weightOf cs := by
  simp only [weight, weightOf, List.flatMap_singleton, subtrees_node, List.length_cons,
    List.countP_cons, kind_node, Kind.weight]
  by_cases hk : k.countsTwice <;> simp [hk] <;> omega

theorem one_le_weight (t : Tree) : 1 ≤ t.weight := by
  obtain ⟨i, k, cs⟩ := t
  rw [weight_node]
  exact Nat.le_add_right_of_le k.one_le_weight

theorem weight_le_of_mem {t : Tree} {ts : List Tree} (h : t ∈ ts) : t.weight ≤ weightOf ts := by
  obtain ⟨l, r, rfl⟩ := List.append_of_mem h
  rw [weightOf_append, weightOf_cons]
  omega

theorem weight_lt_of_mem_children {c t : Tree} (h : c ∈ t.children) : c.weight < t.weight := by
  obtain ⟨i, k, cs⟩ := t
  have hle := weight_le_of_mem (show c ∈ cs from h)
  have hk := k.one_le_weight
  rw [weight_node]
  omega

/-- A node with children is no lightest tree. -/
theorem one_lt_weight {i : NodeId} {k : Kind} {cs : List Tree} (h : cs ≠ []) :
    1 < (node i k cs).weight := by
  obtain ⟨c, hc⟩ := List.exists_mem_of_ne_nil cs h
  exact Nat.lt_of_le_of_lt c.one_le_weight (weight_lt_of_mem_children hc)

/-- Nor is an identifier. -/
theorem one_lt_weight_identifier (i : NodeId) (x : String) (cs : List Tree) :
    1 < (node i (.identifier x) cs).weight := by
  rw [weight_node, Kind.weight, Kind.countsTwice, Bool.toNat_true]
  omega

end Tree

namespace Context

open Midend.Tree

theorem weight_enclose_lt (ls : List Level) {t u : Tree} (h : u.weight < t.weight) :
    (enclose ls u).weight < (enclose ls t).weight := by
  induction ls generalizing t u with
  | nil => exact h
  | cons l ls ih => exact ih (by simpa [Level.fill] using h)

/-- Lighter trees in a place make the whole lighter. -/
theorem weight_plug_lt (C : Context) {ts us : List Tree} (h : weightOf us < weightOf ts) :
    (C.plug us).weight < (C.plug ts).weight :=
  weight_enclose_lt C.outer (by simpa [Level.fill] using h)

end Context

/-- The weight of a program is that of its tree. -/
theorem Forest.Carries.weight_eq {f : Forest} {t : Tree} (h : f.Carries t) :
    f.weight = t.weight := by
  rw [weight, program, h.root_eq, h.consistent.preorder_eq h.reads, Tree.ids, List.length_map,
    List.countP_map, Tree.weight, Tree.weightOf, List.flatMap_singleton]
  congr 1
  refine List.countP_congr fun u hu => ?_
  simp only [Function.comp_apply, (h.reads.of_mem_subtrees hu).kind?_eq]
  cases u.kind <;> simp [Kind.countsTwice]

end Midend
