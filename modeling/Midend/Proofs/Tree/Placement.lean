import Midend.Proofs.Tree.History

/-!
# Where edits put nodes

Putting nodes in the place of another one first cuts all of them from their parents,
wherever they are: beside the node, below it, below one another, or nowhere. So what
is left of a child list does not depend on how they lie, and they are all put where
the node was, in the order in which they are given
(`splice_puts_nodes_in_place`).

That a node has one place at most can be seen from the list of all child lists
(`listing`), in which it must not occur twice. A consistent forest is like this. A new
node takes each of its children once, however often it is named, but a node that is
named twice in the place of another one is there twice
(`edits_list_nodes_once_iff`).
-/

namespace Midend

namespace Forest

variable {f f' : Forest}

/-! ## The place of a child -/

/-- The child list with the old node replaced by the new ones, among the children that
    stay. -/
theorem Supplanted.children_eq {p old : NodeId} {news : List NodeId}
    (hs : Supplanted f f' p old news) (hf : f.Consistent) (hp : f.parent? old = some p)
    (hold : old ∉ news) :
    f'.children p =
      ((f.children p).filter (· ∉ news)).flatMap fun c => if c = old then news else [c] := by
  have hother : ∀ cs : List NodeId, old ∉ cs →
      (cs.filter (· ∉ news)).flatMap (fun c => if c = old then news else [c]) =
        cs.filter (· ∉ news) := by
    intro cs hcs
    refine Eq.trans (List.flatMap_congr fun c hc => ?_) (List.flatMap_singleton' _)
    rw [if_neg]
    rintro rfl
    exact hcs (List.mem_of_mem_filter hc)
  obtain ⟨l, r, hlr⟩ := List.append_of_mem (hf.parent?_iff.1 hp)
  obtain ⟨hl, hr⟩ := hf.notMem_beside hlr
  rw [hs.children_at hlr, hlr, List.filter_append, List.filter_cons_of_pos (by simpa using hold),
    List.flatMap_append, List.flatMap_cons, hother l hl, hother r hr, if_pos rfl,
    List.append_assoc]

/-! ## All places -/

/-- The child lists of all nodes, one after the other. -/
def listing (f : Forest) : List NodeId := (List.range f.size).flatMap f.children

theorem lt_size_of_mem_children {c p : NodeId} (hc : c ∈ f.children p) : p < f.size := by
  by_contra hp
  rw [f.children_eq_nil p (by simpa [contains_iff] using hp)] at hc
  exact absurd hc List.not_mem_nil

/-- In a consistent forest no node is listed twice. -/
theorem Consistent.nodup_listing (hf : f.Consistent) : f.listing.Nodup := by
  rw [listing, List.nodup_flatMap]
  refine ⟨fun p _ => hf.nodup_children p, List.nodup_range.imp fun {p q} hpq c hp hq => hpq ?_⟩
  exact Option.some.inj ((hf.parent?_iff.2 hp).symm.trans (hf.parent?_iff.2 hq))

/-- What is a child of one node only is listed as often as it is among its children. -/
theorem count_listing {c p : NodeId} (hp : c ∈ f.children p)
    (hother : ∀ q, q ≠ p → c ∉ f.children q) :
    f.listing.count c = (f.children p).count c := by
  obtain ⟨l, r, hlr⟩ := List.append_of_mem (List.mem_range.2 (lt_size_of_mem_children hp))
  have hnd := hlr ▸ List.nodup_range (n := f.size)
  rw [List.nodup_middle, List.nodup_cons, List.mem_append, not_or] at hnd
  have hzero : ∀ qs : List NodeId, p ∉ qs → (qs.flatMap f.children).count c = 0 := by
    intro qs hqs
    rw [List.count_eq_zero, List.mem_flatMap]
    rintro ⟨q, hq, hc⟩
    exact hother q (fun h => hqs (h ▸ hq)) hc
  rw [listing, hlr, List.flatMap_append, List.flatMap_cons, List.count_append, List.count_append,
    hzero l hnd.1.1, hzero r hnd.1.2]
  omega

/-- The new nodes are listed as often as they are given. -/
theorem Supplanted.count_listing {p old : NodeId} {news : List NodeId}
    (hs : Supplanted f f' p old news) (hf : f.Consistent) (hp : f.parent? old = some p)
    {c : NodeId} (hc : c ∈ news) : f'.listing.count c = news.count c := by
  have hmem : ∀ {q}, c ∈ f'.children q ↔ q = p := by
    intro q
    rw [hs.mem_children hf hp]
    simp [hc]
  rw [Forest.count_listing (hmem.2 rfl) fun q hq h => hq (hmem.1 h)]
  obtain ⟨l, r, hlr⟩ := List.append_of_mem (hf.parent?_iff.1 hp)
  have hzero : ∀ cs : List NodeId, (cs.filter (· ∉ news)).count c = 0 := fun cs =>
    List.count_eq_zero.2 fun h => by simp [hc] at h
  rw [hs.children_at hlr, List.count_append, List.count_append, hzero, hzero]
  omega

/-- A block of two statements, the second of which is a block. -/
def twoStatements : Forest where
  nodes := #[
    { kind := .block, children := [1, 2] },
    { kind := .returnStmt, parent := some 0 },
    { kind := .block, parent := some 0 }]
  root := 0

theorem consistent_twoStatements : twoStatements.Consistent :=
  consistent_of_ordered (by decide) (by decide +kernel) (by decide +kernel)

/-- A block of two statements and two blocks, which have more of them below, and a
    detached block. -/
def nestedBlocks : Forest where
  nodes := #[
    { kind := .block, children := [1, 2, 3, 4] },
    { kind := .returnStmt, parent := some 0 },
    { kind := .returnStmt, parent := some 0 },
    { kind := .block, parent := some 0, children := [5] },
    { kind := .block, parent := some 0, children := [7] },
    { kind := .block, parent := some 3, children := [6] },
    { kind := .returnStmt, parent := some 5 },
    { kind := .returnStmt, parent := some 4 },
    { kind := .block }]
  root := 0

end Forest

namespace Edit

open Forest

variable {f : Forest}

/-- Nodes that are not above a child take its place, in the order in which they are given
    and wherever they come from: its parent has them instead of it among the children that
    stay, no other node has them any more, and nothing else is changed. -/
theorem splice_puts_nodes_in_place (hf : f.Consistent) {p target : NodeId} {news : List NodeId}
    (hp : f.parent? target = some p)
    (hnews : ∀ n ∈ news, f.contains n ∧ ¬ f.Above n target) :
    ∃ f', splice target news f = .ok () f' ∧
      f'.children p = ((f.children p).filter (· ∉ news)).flatMap
        (fun c => if c = target then news else [c]) ∧
      (∀ q, q ≠ p → f'.children q = (f.children q).filter (· ∉ news)) ∧
      (∀ n ∈ news, f'.parent? n = some p) ∧ f'.parent? target = none ∧
      (∀ i, i ∉ news → i ≠ target → f'.parent? i = f.parent? i) ∧
      (∀ i, f'.kind? i = f.kind? i) ∧ f'.size = f.size ∧ f'.root = f.root := by
  obtain ⟨f', hok, hs⟩ := (ensures_splice hf hp hnews).exists_eq_ok
  have htarget : target ∉ news := fun h => (hnews target h).2 .refl
  refine ⟨f', hok, hs.children_eq hf hp htarget, fun q => hs.children_of_ne, fun n hn => ?_, ?_,
    fun i hi hne => ?_, hs.kind?_eq, hs.size_eq, hs.root_eq⟩
  · rw [hs.parent?_eq, if_pos hn]
  · rw [hs.parent?_eq, if_neg htarget, if_pos rfl]
  · rw [hs.parent?_eq, if_neg hi, if_neg hne]

/-- The third child gives way to nodes from before, after and below it, from below one
    another, and to a detached one. -/
theorem splice_puts_nodes_in_place_nestedBlocks :
    let f := nestedBlocks
    let news := [7, 6, 5, 4, 8, 2]
    f.parent? 3 = some 0 ∧ (∀ n ∈ news, f.contains n ∧ ¬ f.Above n 3) ∧
      ∃ f', splice 3 news f = .ok () f' ∧ f'.children 0 = [1, 7, 6, 5, 4, 8, 2] ∧
        f'.children 5 = [] ∧ f'.parent? 6 = some 0 ∧ f'.parent? 3 = none := by
  intro f news
  have hf : f.Consistent :=
    consistent_of_ordered (by decide) (by decide +kernel) (by decide +kernel)
  have hnews : ∀ n ∈ news, f.contains n ∧ ¬ f.Above n 3 := by
    simp only [← hf.isAbove_iff_above]
    decide +kernel
  obtain ⟨f', hok, hat, hother, hparent, htarget, -⟩ :=
    splice_puts_nodes_in_place hf (show f.parent? 3 = some 0 from rfl) hnews
  refine ⟨rfl, hnews, f', hok, hat.trans (by decide +kernel), ?_,
    hparent 6 (by decide +kernel), htarget⟩
  exact (hother 5 (by decide)).trans (by decide +kernel)

/-! ## Nodes that are named more than once -/

/-- A new node has each of its children once, however often it is named. A node that is
    named more than once in the place of another is there as often, so that no node is
    listed twice exactly if none was named twice. -/
theorem edits_list_nodes_once_iff (hf : f.Consistent) {ids : List NodeId}
    (hids : ∀ i ∈ ids, f.contains i) :
    (∀ kind, ∃ f', add kind ids f = .ok f.size f' ∧ f'.listing.Nodup ∧
      f'.children f.size = ids.dedup) ∧
    ∀ target f', splice target ids f = .ok () f' →
      (f'.listing.Nodup ↔ ids.Nodup) ∧ ∀ i ∈ ids, f'.listing.count i = ids.count i := by
  refine ⟨fun kind => ?_, fun target f' h => ?_⟩
  · obtain ⟨f', hok, hf', hchildren⟩ := (ensures_add hf kind hids).exists_eq_ok
    exact ⟨f', hok, hf'.nodup_listing, hchildren⟩
  · rcases (ensures_splice_cases hf hids).of_eq_ok h with ⟨e, he, -⟩ | ⟨-, p, hp, hab, hs⟩
    · cases he
    have hcount : ∀ i ∈ ids, f'.listing.count i = ids.count i := fun i => hs.count_listing hf hp
    refine ⟨⟨fun hnodup => ?_, fun hnodup => ?_⟩, hcount⟩
    · refine List.nodup_iff_count_le_one.2 fun i => ?_
      by_cases hi : i ∈ ids
      · rw [← hcount i hi]
        exact List.nodup_iff_count_le_one.1 hnodup i
      · rw [List.count_eq_zero.2 hi]
        exact Nat.zero_le 1
    · exact (hf.supplant hs hp hnodup hab).nodup_listing

theorem edits_list_nodes_once_iff_twoStatements :
    let f := twoStatements
    f.Consistent ∧ (∀ i ∈ [2, 1, 2], f.contains i) ∧
      (∃ f', add .block [2, 1, 2] f = .ok 3 f' ∧ f'.listing.Nodup ∧
        f'.children 3 = [1, 2]) ∧
      ∃ f', splice 1 [2] f = .ok () f' ∧ f'.listing.Nodup := by
  intro f
  have hids : ∀ i ∈ [2, 1, 2], f.contains i := by decide +kernel
  have hone : ∀ i ∈ [2], f.contains i := by decide +kernel
  obtain ⟨a, ha⟩ := eq_ok_of_succeeds (x := splice 1 [2]) (s := f) (by decide +kernel)
  refine ⟨consistent_twoStatements, hids,
    (edits_list_nodes_once_iff consistent_twoStatements hids).1 .block, _, ha, ?_⟩
  exact (((edits_list_nodes_once_iff consistent_twoStatements hone).2 1 _ ha).1).2
    (List.nodup_singleton 2)

/-- A node that is named twice in the place of another has two places. -/
theorem splice_lists_node_twice :
    let f := twoStatements
    f.Consistent ∧ (∀ i ∈ [2, 2], f.contains i) ∧
      ∃ f', splice 1 [2, 2] f = .ok () f' ∧ f'.children 0 = [2, 2] ∧ ¬ f'.listing.Nodup := by
  intro f
  obtain ⟨a, ha⟩ := eq_ok_of_succeeds (x := splice 1 [2, 2]) (s := f) (by decide +kernel)
  exact ⟨consistent_twoStatements, by decide +kernel, _, ha, by decide +kernel,
    by decide +kernel⟩

end Edit

end Midend
