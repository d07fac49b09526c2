import Midend.Proofs.Tree.Lineage
import Midend.Tree.Printer

/-!
# Preorders

In a consistent forest a walk ends by itself, and it lists what a recursive listing
would: a node, and then what is below each of its children in turn. These are the
nodes that have the first one in their lineage, each of them once. The printer goes
the same way and starts deeper with each level, so that a line is indented by the
number of steps up to the root.

* `Consistent.walk_eq_take`, `Consistent.preorder_eq_cons`: what a walk lists;
* `Consistent.nodup_preorder`, `Consistent.mem_preorder_iff`: which nodes these are;
* `Consistent.linesWithin_eq`: the lines of a subtree, from the nodes in it;
* `preorder_lists_subtree`: all of it, for the nodes of a consistent forest.
-/

namespace Midend.Forest

open Relation

variable {f : Forest}

namespace Consistent

variable (hf : f.Consistent)
include hf

/-! ## Walks -/

theorem preorder_of_not_contains {i : NodeId} (hi : ¬ f.contains i) : f.preorder i = [i] := by
  obtain ⟨n, hn⟩ := Nat.exists_eq_add_of_le' (Nat.one_le_of_lt (contains_iff.1 hf.contains_root))
  simp [preorder, count, hn, countWithin, f.children_eq_nil i hi, walk]

/-- A walk from a node lists its preorder, up to the number of steps, and ends with it. -/
theorem walk_eq_take (i : NodeId) (n : Nat) : f.walk n [i] = (f.preorder i).take n := by
  by_cases hi : f.contains i
  · obtain ⟨t, ht, rfl⟩ := hf.exists_reads hi
    rw [hf.preorder_eq ht, ht.walk_root_eq_take]
  · rw [hf.preorder_of_not_contains hi]
    rcases n with _ | _ | n <;> simp [walk, f.children_eq_nil i hi]

/-- A node comes first, and then the preorders of its children, in order. -/
theorem preorder_eq_cons (i : NodeId) :
    f.preorder i = i :: (f.children i).flatMap f.preorder := by
  by_cases hi : f.contains i
  · obtain ⟨⟨i, k, cs⟩, ht, rfl⟩ := hf.exists_reads hi
    have hcs : ∀ c ∈ cs, f.preorder c.root = c.ids := fun c hc =>
      hf.preorder_eq (ht.of_mem_children hc)
    rw [hf.preorder_eq ht, ht.children_eq, Tree.ids_node, Tree.root_node, Tree.children_node,
      List.flatMap_map, List.flatMap_congr hcs]
  · rw [hf.preorder_of_not_contains hi, f.children_eq_nil i hi, List.flatMap_nil]

theorem nodup_preorder (i : NodeId) : (f.preorder i).Nodup := by
  by_cases hi : f.contains i
  · obtain ⟨t, ht, rfl⟩ := hf.exists_reads hi
    rw [hf.preorder_eq ht]
    exact hf.nodup_ids ht
  · rw [hf.preorder_of_not_contains hi]
    exact List.nodup_singleton i

/-- The preorder of a node lists what is below it. -/
theorem mem_preorder_iff {i j : NodeId} : j ∈ f.preorder i ↔ f.Above i j := by
  by_cases hi : f.contains i
  · obtain ⟨t, ht, rfl⟩ := hf.exists_reads hi
    rw [hf.preorder_eq ht]
    exact hf.mem_ids_iff ht
  · rw [hf.preorder_of_not_contains hi, List.mem_singleton]
    refine ⟨fun h => h ▸ .refl, fun h => ?_⟩
    rcases h.cases_tail with h | ⟨c, -, hc⟩
    · exact h.symm
    · exact absurd (hf.contains_parent hc) hi

theorem nodup_program : f.program.Nodup :=
  hf.nodup_preorder f.root

/-- The preorder of the program lists the nodes below the root. -/
theorem mem_program_iff {i : NodeId} : i ∈ f.program ↔ f.Above f.root i :=
  hf.mem_preorder_iff

end Consistent

/-! ## Levels -/

/-- The number of steps up from a node to one that is above it. -/
def levelBelow (f : Forest) (top i : NodeId) : Nat := (f.lineage i).idxOf top

theorem levelBelow_self (i : NodeId) : f.levelBelow i i = 0 :=
  List.idxOf_cons_self

namespace Consistent

variable (hf : f.Consistent)
include hf

theorem levelBelow_of_parent {top i p : NodeId} (hp : f.parent? i = some p) (hne : i ≠ top) :
    f.levelBelow top i = f.levelBelow top p + 1 := by
  rw [levelBelow, hf.lineage_of_parent hp, List.idxOf_cons_ne _ hne]
  rfl

/-- It is one step more to the parent of a node. -/
theorem levelBelow_parent {c p j : NodeId} (hp : f.parent? c = some p) (h : f.Above c j) :
    f.levelBelow p j = f.levelBelow c j + 1 := by
  induction h using ReflTransGen.head_induction_on with
  | refl =>
    have hne : c ≠ p := by
      rintro rfl
      exact hf.not_above_parent hp .refl
    rw [hf.levelBelow_of_parent hp hne, levelBelow_self, levelBelow_self]
  | @head j q hq hc ih =>
    -- The walk down from `p` comes to `c` first and to `j` after that.
    have hjc : j ≠ c := by
      rintro rfl
      exact hf.not_above_parent hq hc
    have hjp : j ≠ p := by
      rintro rfl
      exact hf.not_above_parent hq (hc.tail hp)
    rw [hf.levelBelow_of_parent hq hjp, hf.levelBelow_of_parent hq hjc, ih]

/-- A subtree is printed as one line for each of its nodes, in preorder. -/
theorem linesWithin_eq {t : Tree} (h : f.Reads t) {n : Nat} (hn : t.ids.length ≤ n) (level : Nat) :
    f.linesWithin n level t.root = t.ids.map fun i => f.line (level + f.levelBelow t.root i) i := by
  induction t generalizing n level with
  | node i k cs ih =>
    rw [Tree.ids_node, List.length_cons] at hn
    obtain ⟨n, rfl⟩ := Nat.exists_eq_add_of_le' (Nat.one_le_of_lt hn)
    have hcs : ∀ c ∈ cs, f.linesWithin n (level + 1) c.root =
        c.ids.map fun j => f.line (level + f.levelBelow i j) j := by
      intro c hc
      have hreads := h.of_mem_children hc
      have hparent : f.parent? c.root = some i := hf.parent?_of_mem_children h hc
      have hlen := Tree.length_ids_le hc
      rw [ih c hc hreads (by omega)]
      refine List.map_congr_left fun j hj => ?_
      rw [hf.levelBelow_parent hparent (hf.above_of_mem_ids hreads hj), Nat.add_right_comm,
        Nat.add_assoc]
    rw [linesWithin, h.children_eq, Tree.ids_node, List.map_cons, Tree.root_node, levelBelow_self,
      Tree.children_node, List.flatMap_map, List.flatMap_congr hcs, List.map_flatMap]
    rfl

/-- The program is printed as one line for each of its nodes, indented by its level. -/
theorem render_eq :
    f.render = .join (f.program.map fun i => f.line (f.levelBelow f.root i) i) := by
  obtain ⟨t, ht, hroot⟩ := hf.exists_reads hf.contains_root
  rw [render, program, ← hroot, hf.preorder_eq ht, hf.linesWithin_eq ht (hf.length_ids_le_size ht)]
  simp only [Nat.zero_add]

end Consistent

/-- A walk of any number of steps lists the preorder of the node, as far as it gets, and
    ends with it. The preorder is the node and then the preorders of its children, in
    order; it lists the nodes that have this one above them, each of them once. So the
    preorder of the root lists what belongs to the program, and the program is printed
    in this order, a line for each node, indented by its level below the root. -/
theorem preorder_lists_subtree (hf : f.Consistent) (i : NodeId) :
    (∀ n, f.walk n [i] = (f.preorder i).take n) ∧
    f.preorder i = i :: (f.children i).flatMap f.preorder ∧
    (f.preorder i).Nodup ∧ (∀ j, j ∈ f.preorder i ↔ f.Above i j) ∧
    (∀ j, j ∈ f.program ↔ f.inProgram j) ∧
    f.render = .join (f.program.map fun j => f.line (f.levelBelow f.root j) j) := by
  refine ⟨hf.walk_eq_take i, hf.preorder_eq_cons i, hf.nodup_preorder i,
    fun j => hf.mem_preorder_iff, fun j => ?_, hf.render_eq⟩
  rw [program, hf.mem_preorder_iff, inProgram, hf.isAbove_iff_above]

/-- A block of two blocks, the second of which is the program, and a detached
    statement. -/
def innerProgram : Forest where
  nodes := #[
    { kind := .block, children := [1, 3] },
    { kind := .block, parent := some 0, children := [2] },
    { kind := .returnStmt, parent := some 1 },
    { kind := .block, parent := some 0, children := [6, 4] },
    { kind := .block, parent := some 3, children := [5] },
    { kind := .returnStmt, parent := some 4 },
    { kind := .assignment "x", parent := some 3 },
    { kind := .returnStmt }]
  root := 3

theorem preorder_lists_subtree_innerProgram :
    let f := innerProgram
    f.Consistent ∧ f.walk 3 [0] = [0, 1, 2] ∧ f.walk 9 [0] = [0, 1, 2, 3, 6, 4, 5] ∧
      f.inProgram 5 ∧ ¬ f.inProgram 0 ∧ ¬ f.inProgram 7 ∧
      f.render = "CodeBlock\n  Assignment(x)\n  CodeBlock\n    ReturnStmt\n" := by
  intro f
  have hf : f.Consistent :=
    consistent_of_ordered (by decide) (by decide +kernel) (by decide +kernel)
  obtain ⟨hwalk, -, -, -, hprogram, hrender⟩ := preorder_lists_subtree hf 0
  have hpre : f.preorder 0 = [0, 1, 2, 3, 6, 4, 5] := by decide +kernel
  have hids : f.program = [3, 6, 4, 5] := by decide +kernel
  simp only [← hprogram, hids]
  refine ⟨hf, ?_, ?_, by decide, by decide, by decide, ?_⟩
  · rw [hwalk, hpre]
    rfl
  · rw [hwalk, hpre]
    rfl
  · rw [hrender, hids]
    decide +kernel

end Midend.Forest
