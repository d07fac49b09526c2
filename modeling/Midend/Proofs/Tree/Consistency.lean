import Mathlib.Data.List.Nodup
import Mathlib.Data.List.Perm.Subperm
import Mathlib.Logic.Relation
import Mathlib.Order.WellFounded
import Midend.Proofs.Tree.Reading

/-!
# Consistent forests

A forest is *consistent* when a node is a child of its parent, and of no other
node, once, and no node lies below itself. The nodes of a tree that is read in a
consistent forest are then different (`Consistent.nodup_ids`), so there are no
more of them than the forest has.

The edits that put nodes in the place of another one differ only in what they put
there; they all lead to a forest in which the old node is *supplanted*. This keeps
a forest consistent if the old node does not lie below a new one
(`Consistent.supplant`).
-/

namespace Midend.Forest

open Relation

/-- Parents and children agree, no node is listed twice, and no chain of parents
    goes on forever. -/
structure Consistent (f : Forest) : Prop where
  parent?_iff : ∀ {c p : NodeId}, f.parent? c = some p ↔ c ∈ f.children p
  nodup_children : ∀ p : NodeId, (f.children p).Nodup
  finite : WellFounded fun p c => f.parent? c = some p
  contains_root : f.contains f.root

/-- Parents that come before their children make no endless chain. -/
theorem wellFounded_of_parent_lt {f : Forest} (h : ∀ c p, f.parent? c = some p → p < c) :
    WellFounded fun p c => f.parent? c = some p :=
  Subrelation.wf (fun hp => h _ _ hp) Nat.lt_wfRel.wf

/-- In a forest in which parents come before their children, consistency can be seen
    from the entries. -/
theorem consistent_of_ordered {f : Forest} (hroot : f.root < f.size)
    (hparent : ∀ c < f.size, ∀ p ∈ f.parent? c, p < c ∧ c ∈ f.children p)
    (hchildren : ∀ p < f.size, (f.children p).Nodup ∧ ∀ c ∈ f.children p, f.parent? c = some p) :
    f.Consistent where
  parent?_iff {c p} := by
    constructor
    · intro hp
      by_cases hc : c < f.size
      · exact (hparent c hc p hp).2
      · simp [parent?, Array.getElem?_eq_none (Nat.not_lt.1 hc)] at hp
    · intro hc
      by_cases hp : p < f.size
      · exact (hchildren p hp).2 c hc
      · simp [children, Array.getElem?_eq_none (Nat.not_lt.1 hp)] at hc
  nodup_children p := by
    by_cases hp : p < f.size
    · exact (hchildren p hp).1
    · simp [children, Array.getElem?_eq_none (Nat.not_lt.1 hp)]
  finite := by
    refine wellFounded_of_parent_lt fun c p hp => ?_
    by_cases hc : c < f.size
    · exact (hparent c hc p hp).1
    · simp [parent?, Array.getElem?_eq_none (Nat.not_lt.1 hc)] at hp
  contains_root := contains_iff.2 hroot

/-- A node is the other one or a parent, a parent of a parent, and so on of it. -/
def Above (f : Forest) (a b : NodeId) : Prop :=
  ReflTransGen (fun x y => f.parent? x = some y) b a

theorem above_of_mem_lineageWithin {f : Forest} {n : Nat} {a b : NodeId}
    (h : a ∈ f.lineageWithin n b) : f.Above a b := by
  induction n generalizing b with
  | zero => simp [lineageWithin] at h
  | succ n ih =>
    rw [lineageWithin, List.mem_cons] at h
    rcases h with rfl | h
    · exact .refl
    · split at h
      next p hp => exact .head hp (ih h)
      next => simp at h

theorem above_of_isAbove {f : Forest} {a b : NodeId} (h : f.isAbove a b) : f.Above a b :=
  above_of_mem_lineageWithin (isAbove_iff.1 h)

/-- What is above a parent is above its child. -/
theorem Above.of_parent {f : Forest} {a p c : NodeId} (h : f.Above a p)
    (hp : f.parent? c = some p) : f.Above a c :=
  .head hp h

/-- What is above a node, and is another one, is above its parent. -/
theorem Above.to_parent {f : Forest} {a p c : NodeId} (h : f.Above a c) (hne : c ≠ a)
    (hp : f.parent? c = some p) : f.Above a p := by
  rcases h.cases_head with heq | ⟨q, hq, ha⟩
  · exact absurd heq hne
  · obtain rfl : p = q := Option.some.inj (hp.symm.trans hq)
    exact ha

theorem Above.eq_of_parent_none {f : Forest} {a c : NodeId} (h : f.Above a c)
    (hp : f.parent? c = none) : c = a := by
  rcases h.cases_head with heq | ⟨q, hq, -⟩
  · exact heq
  · simp [hp] at hq

/-- What is above a node stays so where each link goes to a node above. -/
theorem Above.of_links {f f' : Forest} {a b : NodeId} (h : f'.Above a b)
    (hlink : ∀ c p, f'.parent? c = some p → f.Above p c) : f.Above a b := by
  induction h using ReflTransGen.head_induction_on with
  | refl => exact .refl
  | head hp _ ih => exact (hlink _ _ hp).trans ih

/-- Of the nodes above a node, one is above the other. -/
theorem Above.total {f : Forest} {a b c : NodeId} (ha : f.Above a c) (hb : f.Above b c) :
    f.Above a b ∨ f.Above b a :=
  (ReflTransGen.total_of_right_unique (fun _ _ _ h h' => Option.some.inj (h.symm.trans h'))
    ha hb).symm

namespace Consistent

variable {f f' : Forest} (hf : f.Consistent)
include hf

theorem contains_parent {c p : NodeId} (hp : f.parent? c = some p) : f.contains p := by
  by_contra h
  have hc := hf.parent?_iff.1 hp
  rw [f.children_eq_nil p h] at hc
  exact absurd hc List.not_mem_nil

/-- No node is above its parent. -/
theorem not_above_parent {c p : NodeId} (hp : f.parent? c = some p) : ¬ f.Above c p := by
  intro h
  have hcycle : TransGen (fun x y => f.parent? x = some y) c c := .head' hp h
  exact hf.finite.transGen.irrefl.irrefl c (transGen_swap.2 hcycle)

/-- Of two children of one node, none is above the other. -/
theorem eq_of_above_sibling {c d p : NodeId} (hc : f.parent? c = some p)
    (hd : f.parent? d = some p) (h : f.Above c d) : c = d := by
  by_contra hne
  exact hf.not_above_parent hc (h.to_parent (Ne.symm hne) hd)

/-- A child is listed in one place. -/
theorem notMem_beside {p c : NodeId} {l r : List NodeId} (h : f.children p = l ++ c :: r) :
    c ∉ l ∧ c ∉ r := by
  have hnd := hf.nodup_children p
  rw [h, List.nodup_middle, List.nodup_cons, List.mem_append, not_or] at hnd
  exact hnd.1

/-! ## The nodes of a tree -/

theorem parent?_of_mem_children {t c : Tree} (h : f.Reads t) (hc : c ∈ t.children) :
    f.parent? c.root = some t.root := by
  rw [hf.parent?_iff, h.children_eq]
  exact List.mem_map_of_mem hc

/-- The root of a tree is above its nodes. -/
theorem above_of_mem_ids {t : Tree} (h : f.Reads t) {i : NodeId} (hi : i ∈ t.ids) :
    f.Above t.root i := by
  induction t with
  | node j k cs ih =>
    rw [Tree.ids_node, List.mem_cons, List.mem_flatMap] at hi
    rcases hi with rfl | ⟨c, hc, hi⟩
    · exact .refl
    · exact (ih c hc (h.of_mem_children hc) hi).tail (hf.parent?_of_mem_children h hc)

/-- The nodes of a tree are different. -/
theorem nodup_ids {t : Tree} (h : f.Reads t) : t.ids.Nodup := by
  induction t with
  | node i k cs ih =>
    rw [Tree.ids_node, List.nodup_cons, List.nodup_flatMap]
    have hparent : ∀ c ∈ cs, f.parent? c.root = some i := fun c => hf.parent?_of_mem_children h
    have habove : ∀ c ∈ cs, ∀ j ∈ c.ids, f.Above c.root j := fun c hc j =>
      hf.above_of_mem_ids (h.of_mem_children hc)
    refine ⟨fun hi => ?_, fun c hc => ih c hc (h.of_mem_children hc), ?_⟩
    · obtain ⟨c, hc, hi⟩ := List.mem_flatMap.1 hi
      exact hf.not_above_parent (hparent c hc) (habove c hc i hi)
    · have hroots : (cs.map Tree.root).Nodup := by
        have := hf.nodup_children i
        rwa [show f.children i = cs.map Tree.root from h.children_eq] at this
      refine (List.pairwise_map.1 hroots).imp_of_mem fun {c d} hc hd hne j hjc hjd => hne ?_
      -- Both are above `j`, so one is above the other.
      rcases (habove c hc j hjc).total (habove d hd j hjd) with hcd | hdc
      · exact hf.eq_of_above_sibling (hparent c hc) (hparent d hd) hcd
      · exact (hf.eq_of_above_sibling (hparent d hd) (hparent c hc) hdc).symm

theorem length_ids_le_size {t : Tree} (h : f.Reads t) : t.ids.length ≤ f.size := by
  have hsub : t.ids ⊆ List.range f.size := fun i hi =>
    List.mem_range.2 (contains_iff.1 (h.contains_of_mem_ids hi))
  simpa using (List.subperm_of_subset (hf.nodup_ids h) hsub).length_le

theorem preorder_eq {t : Tree} (h : f.Reads t) : f.preorder t.root = t.ids :=
  h.preorder_eq (hf.length_ids_le_size h)

end Consistent

/-! ## Putting nodes in the place of another -/

/-- In `f'` the child `old` of `p` has given its place to other nodes, which have
    left theirs. -/
structure Supplanted (f f' : Forest) (p old : NodeId) (news : List NodeId) : Prop where
  size_eq : f'.size = f.size
  root_eq : f'.root = f.root
  kind?_eq : ∀ i, f'.kind? i = f.kind? i
  parent?_eq : ∀ i, f'.parent? i =
    if i ∈ news then some p else if i = old then none else f.parent? i
  children_at : ∀ {l r : List NodeId}, f.children p = l ++ old :: r →
    f'.children p = l.filter (· ∉ news) ++ news ++ r.filter (· ∉ news)
  children_of_ne : ∀ {i : NodeId}, i ≠ p → f'.children i = (f.children i).filter (· ∉ news)

/-- New links to one node, which does not lie below what is linked to it, make no
    endless chain. -/
theorem wellFounded_of_attach {f f' : Forest} {p : NodeId} {news : List NodeId}
    (hf : WellFounded fun p c => f.parent? c = some p) (hp : ∀ n ∈ news, ¬ f.Above n p)
    (hlink : ∀ {c q}, f'.parent? c = some q → f.parent? c = some q ∨ c ∈ news ∧ q = p) :
    WellFounded fun p c => f'.parent? c = some p := by
  -- A chain that starts below no new node is one that was there before.
  have hold : ∀ i, (∀ n ∈ news, ¬ f.Above n i) → Acc (fun p c => f'.parent? c = some p) i := by
    intro i
    induction i using hf.induction with
    | h i ih =>
      refine fun hi => Acc.intro i fun q hq => ?_
      rcases hlink hq with hq | ⟨hmem, -⟩
      · exact ih q hq fun n hn ha => hi n hn (ha.of_parent hq)
      · exact absurd .refl (hi i hmem)
  refine ⟨fun i => ?_⟩
  induction i using hf.induction with
  | h i ih =>
    refine Acc.intro i fun q hq => ?_
    rcases hlink hq with hq | ⟨-, rfl⟩
    · exact ih q hq
    · exact hold q hp

namespace Supplanted

variable {f f' : Forest} {p old : NodeId} {news : List NodeId} (hs : Supplanted f f' p old news)
  (hf : f.Consistent) (hp : f.parent? old = some p)
include hs hf hp

theorem mem_children {c q : NodeId} :
    c ∈ f'.children q ↔ c ∈ news ∧ q = p ∨ c ∉ news ∧ c ≠ old ∧ c ∈ f.children q := by
  obtain ⟨l, r, hlr⟩ := List.append_of_mem (hf.parent?_iff.1 hp)
  by_cases hq : q = p
  · subst hq
    have hnd := hf.nodup_children q
    rw [hlr, List.nodup_middle, List.nodup_cons] at hnd
    rw [hs.children_at hlr, hlr]
    grind
  · have hne : c ∈ f.children q → c ≠ old := by
      rintro hc rfl
      exact hq (Option.some.inj ((hf.parent?_iff.2 hc).symm.trans hp))
    rw [hs.children_of_ne hq]
    grind

theorem nodup_children (hnodup : news.Nodup) (q : NodeId) : (f'.children q).Nodup := by
  by_cases hq : q = p
  · subst hq
    obtain ⟨l, r, hlr⟩ := List.append_of_mem (hf.parent?_iff.1 hp)
    have hnd := hf.nodup_children q
    rw [hlr, List.nodup_middle, List.nodup_cons, List.nodup_append'] at hnd
    rw [hs.children_at hlr, List.nodup_append', List.nodup_append']
    obtain ⟨-, hl, hr, hdisj⟩ := hnd
    refine ⟨⟨hl.filter _, hnodup, ?_⟩, hr.filter _, ?_⟩
    · intro c hc hn
      simp_all
    · intro c hc hr
      rcases List.mem_append.1 hc with hc | hc
      · exact hdisj (List.mem_of_mem_filter hc) (List.mem_of_mem_filter hr)
      · simp_all
  · rw [hs.children_of_ne hq]
    exact (hf.nodup_children q).filter _

end Supplanted

/-- A child gives its place to nodes that are not above it. -/
theorem Consistent.supplant {f f' : Forest} {p old : NodeId} {news : List NodeId}
    (hf : f.Consistent) (hs : Supplanted f f' p old news) (hp : f.parent? old = some p)
    (hnodup : news.Nodup) (hnews : ∀ n ∈ news, ¬ f.Above n old) : f'.Consistent where
  parent?_iff {c q} := by
    have hold : old ∉ news := fun h => hnews old h .refl
    rw [hs.parent?_eq, hs.mem_children hf hp, ← hf.parent?_iff]
    grind
  nodup_children := hs.nodup_children hf hp hnodup
  finite := by
    refine wellFounded_of_attach hf.finite (fun n hn ha => hnews n hn (ha.of_parent hp)) ?_
    intro c q hq
    rw [hs.parent?_eq] at hq
    grind
  contains_root := by
    rw [contains_iff, hs.size_eq, hs.root_eq]
    exact contains_iff.1 hf.contains_root

end Midend.Forest
