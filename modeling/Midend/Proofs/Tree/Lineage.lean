import Midend.Proofs.Tree.Consistency

/-!
# Lineages

In a consistent forest the nodes above a node are different, so there are no more
of them than the forest has, and the list of them is complete: it ends with a node
that has no parent (`Consistent.exists_top`), and a node is listed exactly if it is
above (`Consistent.isAbove_iff_above`).

The way down ends as well, since the lineage gets longer with each step. So every
node of a consistent forest reads as a tree (`Consistent.exists_reads`). The way up
should end at the root, which has no parent then (`Rooted`).
-/

namespace Midend.Forest

open Relation

/-- A walk upwards that ends before its limit ends there with any larger limit. -/
theorem lineageWithin_eq_of_length_lt {f : Forest} {n k : Nat} {i : NodeId}
    (h : (f.lineageWithin n i).length < n) (hk : n ≤ k) :
    f.lineageWithin k i = f.lineageWithin n i := by
  induction n generalizing i k with
  | zero => exact absurd h (Nat.not_lt_zero _)
  | succ n ih =>
    obtain ⟨k, rfl⟩ : ∃ j, k = j + 1 := ⟨k - 1, by omega⟩
    rw [lineageWithin, List.length_cons] at h
    rw [lineageWithin, lineageWithin]
    cases hp : f.parent? i with
    | none => rfl
    | some p =>
      simp only [hp] at h
      simp only [ih (Nat.lt_of_succ_lt_succ h) (Nat.le_of_succ_le_succ hk)]

theorem lineage_of_parent_none {f : Forest} {i : NodeId} (hp : f.parent? i = none) :
    f.lineage i = [i] := by
  simp only [lineage, lineageWithin, hp]

namespace Consistent

variable {f : Forest} (hf : f.Consistent)
include hf

theorem contains_of_above {a b : NodeId} (h : f.Above a b) (hb : f.contains b) : f.contains a := by
  induction h using ReflTransGen.head_induction_on with
  | refl => exact hb
  | head hp _ ih => exact ih (hf.contains_parent hp)

theorem nodup_lineageWithin (n : Nat) (i : NodeId) : (f.lineageWithin n i).Nodup := by
  induction n generalizing i with
  | zero => exact .nil
  | succ n ih =>
    rw [lineageWithin, List.nodup_cons]
    cases hp : f.parent? i with
    | none => exact ⟨List.not_mem_nil, .nil⟩
    | some p =>
      exact ⟨fun h => hf.not_above_parent hp (above_of_mem_lineageWithin h), ih p⟩

/-- There are no more nodes above a node than there are nodes. -/
theorem length_lineageWithin_le {i : NodeId} (hi : f.contains i) (n : Nat) :
    (f.lineageWithin n i).length ≤ f.size := by
  have hsub : f.lineageWithin n i ⊆ List.range f.size := fun j hj =>
    List.mem_range.2 (contains_iff.1 (hf.contains_of_above (above_of_mem_lineageWithin hj) hi))
  simpa using (List.subperm_of_subset (hf.nodup_lineageWithin n i) hsub).length_le

theorem lineageWithin_eq {n : Nat} (hn : f.size < n) (i : NodeId) :
    f.lineageWithin n i = f.lineage i := by
  by_cases hi : f.contains i
  · exact lineageWithin_eq_of_length_lt (Nat.lt_succ_of_le (hf.length_lineageWithin_le hi _)) hn
  · obtain ⟨n, rfl⟩ : ∃ k, n = k + 1 := ⟨n - 1, by omega⟩
    simp only [lineage, lineageWithin, f.parent?_eq_none i hi]

theorem lineage_of_parent {i p : NodeId} (hp : f.parent? i = some p) :
    f.lineage i = i :: f.lineage p := by
  rw [← hf.lineageWithin_eq (n := f.size + 2) (by omega) i, lineageWithin]
  simp only [hp]
  rfl

/-- A node is listed in the lineage of another exactly if it is above it. -/
theorem isAbove_iff_above {a b : NodeId} : f.isAbove a b ↔ f.Above a b := by
  refine ⟨above_of_isAbove, fun h => isAbove_iff.2 ?_⟩
  induction h using ReflTransGen.head_induction_on with
  | refl => exact List.mem_cons_self
  | head hp _ ih =>
    rw [hf.lineage_of_parent hp]
    exact List.mem_cons_of_mem _ ih

/-- A lineage ends with a node that has no parent. -/
theorem exists_top (i : NodeId) :
    ∃ top, (f.lineage i).getLast? = some top ∧ f.parent? top = none := by
  induction i using hf.finite.induction with
  | h i ih =>
    cases hp : f.parent? i with
    | none => exact ⟨i, by rw [lineage_of_parent_none hp]; rfl, hp⟩
    | some p =>
      obtain ⟨top, hlast, htop⟩ := ih p hp
      refine ⟨top, ?_, htop⟩
      rw [hf.lineage_of_parent hp, List.getLast?_cons, hlast]
      rfl

/-! ## The way down -/

/-- No chain of children goes on forever. -/
theorem finite_down : WellFounded fun c p => f.parent? c = some p := by
  refine Subrelation.wf ?_ (measure fun i => f.size - (f.lineage i).length).wf
  intro c p hp
  have hlen := hf.length_lineageWithin_le (f.contains_of_parent? c hp) (f.size + 1)
  change (f.lineage c).length ≤ f.size at hlen
  change f.size - (f.lineage c).length < f.size - (f.lineage p).length
  rw [hf.lineage_of_parent hp, List.length_cons] at hlen ⊢
  omega

/-- Every node reads as a tree. -/
theorem exists_reads {i : NodeId} (hi : f.contains i) : ∃ t, f.Reads t ∧ t.root = i := by
  induction i using hf.finite_down.induction with
  | h i ih =>
    have hchild : ∀ c ∈ f.children i, ∃ t, f.Reads t ∧ t.root = c := fun c hc =>
      ih c (hf.parent?_iff.2 hc) (f.contains_of_parent? c (hf.parent?_iff.2 hc))
    choose tree hreads hroot using hchild
    obtain ⟨k, hk⟩ := Option.isSome_iff_exists.1 ((f.isSome_kind?_iff i).2 hi)
    refine ⟨.node i k ((f.children i).attach.map fun c => tree c.1 c.2), .node hk ?_ ?_, rfl⟩
    · simp [Function.comp_def, hroot]
    · intro t ht
      obtain ⟨c, -, rfl⟩ := List.mem_map.1 ht
      exact hreads c.1 c.2

/-- The nodes of a tree are those below its root. -/
theorem mem_ids_iff {t : Tree} (h : f.Reads t) {i : NodeId} : i ∈ t.ids ↔ f.Above t.root i := by
  refine ⟨hf.above_of_mem_ids h, fun ha => ?_⟩
  induction ha using ReflTransGen.head_induction_on with
  | refl => exact t.root_mem_ids
  | @head i p hp _ ih =>
    obtain ⟨u, hu, rfl⟩ := List.mem_map.1 ih
    have hi := hf.parent?_iff.1 hp
    rw [(h.of_mem_subtrees hu).children_eq] at hi
    obtain ⟨c, hc, rfl⟩ := List.mem_map.1 hi
    exact List.mem_map_of_mem (Tree.mem_subtrees_of_mem_children hu hc)

end Consistent

/-! ## Roots without a parent -/

/-- The forest is consistent and its root has no parent. -/
structure Rooted (f : Forest) : Prop extends Consistent f where
  parent?_root : f.parent? f.root = none

namespace Rooted

variable {f : Forest} (hf : f.Rooted)
include hf

theorem inProgram_iff {i : NodeId} : f.inProgram i ↔ f.Above f.root i :=
  hf.isAbove_iff_above

/-- Nothing is above the root. -/
theorem eq_root_of_above {i : NodeId} (h : f.Above i f.root) : f.root = i :=
  h.eq_of_parent_none hf.parent?_root

end Rooted

end Midend.Forest
