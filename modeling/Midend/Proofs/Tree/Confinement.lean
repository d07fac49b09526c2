import Midend.Proofs.Tree.Edit
import Midend.Proofs.Tree.Lineage

/-!
# Changes below given nodes

A change of a forest is *confined* to what is below given nodes if all other nodes
keep their kinds, their parents and, the given nodes apart, their children. This is
said of the whole store, so it holds of nodes that are in no program as well.

Nodes that were added later count as below the given ones. Then a node is inside
exactly if its parent is, at every time (`Confined.inner_iff_of_parent`), and edits of
nodes that are inside stay confined (`Edit.confined_replace`, `Edit.confined_delete`,
`Edit.confined_splice`). A tree that is separate from the given nodes is read as before
(`Confined.reads`).
-/

namespace Midend

namespace Forest

open Relation

variable {f g g' : Forest} {ms : List NodeId}

/-- The node is below one of the given nodes, or was added later. -/
def Inner (f : Forest) (ms : List NodeId) (i : NodeId) : Prop :=
  f.size ≤ i ∨ ∃ m ∈ ms, f.Above m i ∧ i ≠ m

/-- Of the nodes of `f`, only those below the given ones are different in `g`. -/
structure Confined (f : Forest) (ms : List NodeId) (g : Forest) : Prop where
  consistent : g.Consistent
  root_eq : g.root = f.root
  size_le : f.size ≤ g.size
  kind?_eq : ∀ {i}, f.contains i → g.kind? i = f.kind? i
  parent?_eq : ∀ {i}, ¬ f.Inner ms i → g.parent? i = f.parent? i
  children_eq : ∀ {i}, ¬ f.Inner ms i → i ∉ ms → g.children i = f.children i

namespace Confined

theorem refl (hf : f.Consistent) (ms : List NodeId) : f.Confined ms f :=
  ⟨hf, rfl, Nat.le_refl _, fun _ => rfl, fun _ => rfl, fun _ _ => rfl⟩

variable (hf : f.Consistent) (h : f.Confined ms g)

include h in
/-- A new node is inside. -/
theorem inner_size : f.Inner ms g.size := .inl h.size_le

include h in
theorem grow (k : Kind) : f.Confined ms (g.grow k) where
  consistent := h.consistent.grow k
  root_eq := h.root_eq
  size_le := by
    rw [size_grow]
    exact Nat.le_succ_of_le h.size_le
  kind?_eq {i} hi := by
    have hne : i ≠ g.size := Nat.ne_of_lt (Nat.lt_of_lt_of_le (contains_iff.1 hi) h.size_le)
    rw [kind?_grow, if_neg hne, h.kind?_eq hi]
  parent?_eq hi := by rw [parent?_grow, h.parent?_eq hi]
  children_eq hi hms := by rw [children_grow, h.children_eq hi hms]

include hf h

/-- A node is inside exactly if its parent is, or is one of the given nodes. -/
theorem inner_iff_of_parent {c p : NodeId} (hp : g.parent? c = some p) :
    f.Inner ms c ↔ f.Inner ms p ∨ p ∈ ms := by
  constructor
  · intro hc
    by_contra hnot
    obtain ⟨hinner, hms⟩ := not_or.1 hnot
    -- The parent has its children since the beginning.
    have hparent : f.parent? c = some p := by
      rw [hf.parent?_iff, ← h.children_eq hinner hms]
      exact h.consistent.parent?_iff.1 hp
    rcases hc with hsize | ⟨m, hm, habove, hne⟩
    · exact Nat.not_lt.2 hsize (contains_iff.1 (f.contains_of_parent? c hparent))
    · by_cases hpm : p = m
      · exact hms (hpm ▸ hm)
      · exact hinner (.inr ⟨m, hm, habove.to_parent hne hparent, hpm⟩)
  · intro hpar
    by_contra hinner
    have hparent : f.parent? c = some p := by rw [← h.parent?_eq hinner, hp]
    have habove : ∀ m, f.Above m p → m ∉ ms := fun m hmp hm => hinner <| .inr
      ⟨m, hm, hmp.of_parent hparent, fun heq => hf.not_above_parent hparent (heq ▸ hmp)⟩
    rcases hpar with (hsize | ⟨m, hm, hmp, -⟩) | hm
    · exact Nat.not_lt.2 hsize (contains_iff.1 (hf.contains_parent hparent))
    · exact habove m hmp hm
    · exact habove p .refl hm

theorem inner_of_mem_children {c p : NodeId} (hc : c ∈ g.children p)
    (hp : f.Inner ms p ∨ p ∈ ms) : f.Inner ms c :=
  (h.inner_iff_of_parent hf (h.consistent.parent?_iff.2 hc)).2 hp

/-- What is below a given node at any time is inside. -/
theorem inner_of_above {m i : NodeId} (hm : m ∈ ms) (ha : g.Above m i) (hne : i ≠ m) :
    f.Inner ms i := by
  induction ha using ReflTransGen.head_induction_on with
  | refl => exact absurd rfl hne
  | @head i p hp hpm ih =>
    refine (h.inner_iff_of_parent hf hp).2 ?_
    by_cases hpm : p = m
    · exact .inr (hpm ▸ hm)
    · exact .inl (ih hpm)

/-- What is confined at first and then is confined in all. -/
theorem trans {ms' : List NodeId} (hms : ms' ⊆ ms) (h' : g.Confined ms' g') : f.Confined ms g' := by
  have houter : ∀ {i}, ¬ f.Inner ms i → ¬ g.Inner ms' i := by
    rintro i hi (hsize | ⟨m, hm, habove, hne⟩)
    · exact hi (.inl (h.size_le.trans hsize))
    · exact hi (h.inner_of_above hf (hms hm) habove hne)
  refine ⟨h'.consistent, h'.root_eq.trans h.root_eq, h.size_le.trans h'.size_le, fun hi => ?_,
    fun hi => ?_, fun hi hi' => ?_⟩
  · rw [h'.kind?_eq (contains_iff.2 ((contains_iff.1 hi).trans_le h.size_le)), h.kind?_eq hi]
  · rw [h'.parent?_eq (houter hi), h.parent?_eq hi]
  · rw [h'.children_eq (houter hi) fun hm => hi' (hms hm), h.children_eq hi hi']

/-- The nodes above a node that is not inside are the same. -/
theorem above_iff {a i : NodeId} (hi : ¬ f.Inner ms i) : g.Above a i ↔ f.Above a i := by
  constructor
  · intro ha
    induction ha using ReflTransGen.head_induction_on with
    | refl => exact .refl
    | head hp _ ih =>
      have houter := mt (h.inner_iff_of_parent hf hp).2 hi
      rw [h.parent?_eq hi] at hp
      exact (ih (fun hinner => houter (.inl hinner))).of_parent hp
  · intro ha
    induction ha using ReflTransGen.head_induction_on with
    | refl => exact .refl
    | head hp _ ih =>
      rw [← h.parent?_eq hi] at hp
      have houter := mt (h.inner_iff_of_parent hf hp).2 hi
      exact (ih (fun hinner => houter (.inl hinner))).of_parent hp

/-- Nodes that are inside supplant another one that is. -/
theorem supplant {p old : NodeId} {news : List NodeId} (hs : Supplanted g g' p old news)
    (hp : g.parent? old = some p) (hold : f.Inner ms old) (hnews : ∀ n ∈ news, f.Inner ms n)
    (hg' : g'.Consistent) : f.Confined ms g' where
  consistent := hg'
  root_eq := hs.root_eq.trans h.root_eq
  size_le := by
    rw [hs.size_eq]
    exact h.size_le
  kind?_eq hi := by rw [hs.kind?_eq, h.kind?_eq hi]
  parent?_eq {i} hi := by
    have hmem : i ∉ news := fun hmem => hi (hnews i hmem)
    have hne : i ≠ old := fun heq => hi (heq ▸ hold)
    rw [hs.parent?_eq, if_neg hmem, if_neg hne, h.parent?_eq hi]
  children_eq {i} hi hms := by
    have hne : i ≠ p := by
      rintro rfl
      exact ((h.inner_iff_of_parent hf hp).1 hold).elim hi hms
    have hkeep : ∀ c ∈ g.children i, c ∉ news := fun c hc hmem =>
      ((h.inner_iff_of_parent hf (h.consistent.parent?_iff.2 hc)).1 (hnews c hmem)).elim hi hms
    rw [hs.children_of_ne hne, List.filter_eq_self.2 fun c hc => decide_eq_true (hkeep c hc),
      h.children_eq hi hms]

theorem detach {i : NodeId} (hi : f.Inner ms i) : f.Confined ms (g.detach i) := by
  cases hp : g.parent? i with
  | none =>
    rw [Forest.detach, hp]
    exact h
  | some p =>
    exact h.supplant hf (supplanted_detach h.consistent hp) hp hi (by simp) (h.consistent.detach i)

end Confined

/-! ## Trees apart -/

/-- None of the two nodes is above the other. -/
def Separate (f : Forest) (i j : NodeId) : Prop := ¬ f.Above i j ∧ ¬ f.Above j i

/-- Trees of the program, none of which is a part of another. -/
structure Apart (f : Forest) (ts : List Tree) : Prop where
  reads : ∀ t ∈ ts, f.Reads t
  above : ∀ t ∈ ts, f.Above f.root t.root
  separate : ts.Pairwise fun t u => f.Separate t.root u.root

/-- A tree that is separate from the given nodes is read as before. -/
theorem Confined.reads (hf : f.Consistent) (h : f.Confined ms g) {t : Tree} (ht : f.Reads t)
    (hapart : ∀ m ∈ ms, f.Separate m t.root) : g.Reads t := by
  refine ht.congr fun i hi => ?_
  have hcontains := ht.contains_of_mem_ids hi
  have habove := hf.above_of_mem_ids ht hi
  have houter : ¬ f.Inner ms i := by
    rintro (hsize | ⟨m, hm, hmi, -⟩)
    · exact Nat.not_lt.2 hsize (contains_iff.1 hcontains)
    · exact (hmi.total habove).elim (hapart m hm).1 (hapart m hm).2
  exact ⟨h.kind?_eq hcontains, h.children_eq houter fun hm => (hapart i hm).2 habove⟩

/-- After a change of the first tree the others are apart, and separate from it. -/
theorem Apart.of_confined (hf : f.Consistent) {t : Tree} {ts : List Tree} (h : f.Apart (t :: ts))
    (hc : f.Confined [t.root] g) : g.Apart ts ∧ ∀ u ∈ ts, g.Separate t.root u.root := by
  obtain ⟨hfirst, hrest⟩ := List.pairwise_cons.1 h.separate
  have hmem : ∀ {u}, u ∈ ts → u ∈ t :: ts := List.mem_cons_of_mem t
  have houter : ∀ u ∈ t :: ts, ¬ f.Inner [t.root] u.root := by
    rintro u hu (hsize | ⟨m, hm, habove, hne⟩)
    · have hcontains := (h.reads u hu).contains_of_mem_ids u.root_mem_ids
      exact Nat.not_lt.2 hsize (contains_iff.1 hcontains)
    · obtain rfl := List.mem_singleton.1 hm
      rcases List.mem_cons.1 hu with rfl | hu
      · exact hne rfl
      · exact (hfirst u hu).1 habove
  have habove : ∀ u ∈ t :: ts, ∀ a, g.Above a u.root ↔ f.Above a u.root := fun u hu a =>
    hc.above_iff hf (houter u hu)
  have hseparate : ∀ u ∈ t :: ts, ∀ v ∈ t :: ts, f.Separate u.root v.root →
      g.Separate u.root v.root := fun u hu v hv huv =>
    ⟨mt (habove v hv u.root).1 huv.1, mt (habove u hu v.root).1 huv.2⟩
  refine ⟨⟨fun u hu => ?_, fun u hu => ?_, ?_⟩, fun u hu => ?_⟩
  · exact hc.reads hf (h.reads u (hmem hu)) (by simpa using hfirst u hu)
  · rw [hc.root_eq, habove u (hmem hu)]
    exact h.above u (hmem hu)
  · exact hrest.imp_of_mem fun hu hv => hseparate _ (hmem hu) _ (hmem hv)
  · exact hseparate t List.mem_cons_self u (hmem hu) (hfirst u hu)

end Forest

/-! ## Edits -/

namespace Edit

open Forest

variable {f g : Forest} {ms : List NodeId} (hf : f.Consistent) (h : f.Confined ms g)
include hf h

theorem confined_replace {old new : NodeId} (hold : f.Inner ms old) (hnew : f.Inner ms new)
    (hroot : old ≠ g.root) : Ensures (replace old new) g fun _ g' => f.Confined ms g' := by
  by_cases heq : old = new
  · simpa [replace, heq] using h
  by_cases hab : g.isAbove new old
  · simpa [replace, heq, hab] using h
  by_cases hco : g.contains old
  case neg => simpa [replace, heq, hab, hco] using h
  by_cases hcn : g.contains new
  case neg => simpa [replace, heq, hab, hco, hcn] using h
  have hab' : ¬ g.Above new old := mt h.consistent.isAbove_iff_above.2 hab
  cases hp : g.parent? old with
  | none =>
    refine (ensures_replace_detached hp hco hcn hab').mono ?_
    rintro _ _ ⟨-, rfl⟩
    rw [if_neg hroot]
    exact h.detach hf hnew
  | some p =>
    refine (ensures_replace h.consistent hp hcn hab').mono ?_
    rintro _ g' ⟨-, hs⟩
    exact h.supplant hf hs hp hold (by simpa using hnew)
      (h.consistent.supplant hs hp (List.nodup_singleton new) (by simpa using hab'))

theorem confined_replaceByLeaf {i : NodeId} (hi : f.Inner ms i) (hroot : i ≠ g.root) (k : Kind) :
    Ensures (do replace i (← leaf k)) g fun _ g' => f.Confined ms g' := by
  rw [ensures_bind, ensures_leaf]
  exact confined_replace hf (h.grow k) hi h.inner_size hroot

theorem confined_delete {i : NodeId} (hi : f.Inner ms i) (hroot : i ≠ g.root) :
    Ensures (delete i) g fun _ g' => f.Confined ms g' := by
  have hcut := h.detach hf hi
  by_cases hc : g.contains i
  · simpa [delete, hroot, hc] using hcut
  · simpa [delete, hroot, hc] using h

theorem confined_splice {old : NodeId} {news : List NodeId} (hold : f.Inner ms old)
    (hnews : ∀ n ∈ news, f.Inner ms n ∧ g.contains n) (hnodup : news.Nodup) :
    Ensures (splice old news) g fun _ g' => f.Confined ms g' := by
  by_cases hco : g.contains old
  case neg => simpa [splice, hco] using h
  cases hp : g.parent? old with
  | none => simpa [splice, hco, hp] using h
  | some p =>
    cases hfind : news.find? (g.isAbove · old) with
    | some n => simpa [splice, hco, hp, hfind] using h
    | none =>
      have hab : ∀ n ∈ news, ¬ g.Above n old := fun n hn ha =>
        List.find?_eq_none.1 hfind n hn (h.consistent.isAbove_iff_above.2 ha)
      refine (ensures_splice h.consistent hp fun n hn => ⟨(hnews n hn).2, hab n hn⟩).mono ?_
      rintro _ g' ⟨-, hs⟩
      exact h.supplant hf hs hp hold (fun n hn => (hnews n hn).1)
        (h.consistent.supplant hs hp hnodup hab)

end Edit

end Midend
