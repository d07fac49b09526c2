import Midend.Proofs.Effect
import Midend.Proofs.Tree.Consistency
import Midend.Tree.Edit

/-!
# What edits do

Putting a node or several nodes in the place of another one, and cutting a node
out, lead to a forest in which the old node is supplanted by the new ones
(`ensures_replace`, `ensures_splice`, `ensures_delete`), provided that the old node
has a parent and that no new node is above it. A detached node has no place to
give, but another node can be the root in its stead (`ensures_replace_detached`).
A new leaf is a detached node (`Consistent.grow`).
-/

namespace Midend

namespace Forest

variable {f : Forest}

/-- A new detached node keeps a forest consistent. -/
theorem Consistent.grow (hf : f.Consistent) (k : Kind) : (f.grow k).Consistent where
  parent?_iff := by
    intro c p
    rw [parent?_grow, children_grow]
    exact hf.parent?_iff
  nodup_children := by simpa using hf.nodup_children
  finite := by simpa using hf.finite
  contains_root := by
    rw [contains_iff, size_grow]
    exact Nat.lt_succ_of_lt (contains_iff.1 hf.contains_root)

/-! ## Cutting nodes out -/

theorem Consistent.children_detach (hf : f.Consistent) (i j : NodeId) :
    (f.detach i).children j = (f.children j).filter (· ≠ i) := by
  rw [Forest.children_detach]
  split
  next => rfl
  next h =>
    refine (List.filter_eq_self.2 fun c hc => decide_eq_true ?_).symm
    rintro rfl
    exact h (hf.parent?_iff.2 hc)

theorem above_of_detach {a b c : NodeId} (h : (f.detach c).Above a b) : f.Above a b := by
  refine h.of_links fun d q hd => .single ?_
  rw [parent?_detach] at hd
  grind

/-- A node that is cut out gives its place to nothing. -/
theorem supplanted_detach (hf : f.Consistent) {p i : NodeId} (hp : f.parent? i = some p) :
    Supplanted f (f.detach i) p i [] where
  size_eq := by simp
  root_eq := by simp
  kind?_eq := by simp
  parent?_eq j := by simp [eq_comm]
  children_at {l r} h := by
    obtain ⟨hil, hir⟩ := hf.notMem_beside h
    have hl : ∀ c ∈ l, c ≠ i := fun c hc hci => hil (hci ▸ hc)
    have hr : ∀ c ∈ r, c ≠ i := fun c hc hci => hir (hci ▸ hc)
    rw [hf.children_detach, h, List.filter_append, List.filter_cons]
    simp only [ne_eq, not_true, decide_false, Bool.false_eq_true, if_false]
    rw [List.filter_eq_self.2 (by simpa using hl), List.filter_eq_self.2 (by simpa using hr)]
    simp
  children_of_ne {j} hj := by
    rw [Forest.children_detach, if_neg fun h => hj (Option.some.inj (h.symm.trans hp))]
    simp

theorem Consistent.detach (hf : f.Consistent) (i : NodeId) : (f.detach i).Consistent := by
  cases hp : f.parent? i with
  | none => rwa [Forest.detach, hp]
  | some p => exact hf.supplant (supplanted_detach hf hp) hp .nil (by simp)

/-- Nodes that are cut one after the other are gone from all child lists. -/
theorem Consistent.foldl_detach (hf : f.Consistent) (news : List NodeId) :
    let f₁ := news.foldl Forest.detach f
    f₁.size = f.size ∧ f₁.root = f.root ∧ (∀ i, f₁.kind? i = f.kind? i) ∧
      (∀ i, f₁.parent? i = if i ∈ news then none else f.parent? i) ∧
      ∀ i, f₁.children i = (f.children i).filter (· ∉ news) := by
  induction news generalizing f with
  | nil => simp
  | cons n news ih =>
    obtain ⟨hsize, hroot, hkind, hparent, hchildren⟩ := ih (hf.detach n)
    refine ⟨by simpa using hsize, by simpa using hroot, by simpa using hkind, fun i => ?_,
      fun i => ?_⟩
    · rw [List.foldl_cons, hparent, parent?_detach]
      grind
    · rw [List.foldl_cons, hchildren, hf.children_detach, List.filter_filter]
      refine List.filter_congr fun c _ => ?_
      grind

/-! ## Linking nodes -/

theorem setParent_foldl (p : NodeId) (news : List NodeId) (f : Forest) :
    let f₁ := news.foldl (fun f n => f.setParent n (some p)) f
    f₁.size = f.size ∧ f₁.root = f.root ∧ (∀ i, f₁.kind? i = f.kind? i) ∧
      (∀ i, f₁.parent? i = if i ∈ news ∧ f.contains i then some p else f.parent? i) ∧
      ∀ i, f₁.children i = f.children i := by
  induction news generalizing f with
  | nil => simp
  | cons n news ih =>
    obtain ⟨hsize, hroot, hkind, hparent, hchildren⟩ := ih (f.setParent n (some p))
    have hcontains : ∀ i, (f.setParent n (some p)).contains i = f.contains i := by
      simp [contains, setParent]
    refine ⟨by simpa [setParent] using hsize, hroot, by simpa using hkind, fun i => ?_, fun i => ?_⟩
    · rw [List.foldl_cons, hparent, parent?_setParent, hcontains]
      grind
    · rw [List.foldl_cons, hchildren, children_setParent]

/-- A child keeps its place among those that stay when others are cut out. -/
theorem Consistent.exists_indexOf? (hf : f.Consistent) {p old : NodeId}
    (hp : f.parent? old = some p) {news : List NodeId} (hold : old ∉ news) :
    ∃ i, (news.foldl Forest.detach f).indexOf? old = some i ∧
      ∀ {l r}, f.children p = l ++ old :: r → i = (l.filter (· ∉ news)).length := by
  obtain ⟨-, -, -, hparent, hchildren⟩ := hf.foldl_detach news
  have hindex : ∀ {l r}, f.children p = l ++ old :: r →
      (news.foldl Forest.detach f).indexOf? old = some (l.filter (· ∉ news)).length := by
    intro l r hlr
    have hl : old ∉ l.filter (· ∉ news) := fun h =>
      (hf.notMem_beside hlr).1 (List.mem_of_mem_filter h)
    rw [indexOf?, hparent, if_neg hold, hp, Option.bind_some, hchildren, hlr, List.filter_append,
      List.filter_cons_of_pos (by simpa using hold)]
    refine List.idxOf?_eq_some_iff.2 ⟨by simp, by simp, fun j hj => ?_⟩
    rw [List.getElem_append_left hj]
    exact ne_of_mem_of_not_mem (List.getElem_mem hj) hl
  obtain ⟨l, r, hlr⟩ := List.append_of_mem (hf.parent?_iff.1 hp)
  exact ⟨_, hindex hlr, fun h => Option.some.inj ((hindex hlr).symm.trans (hindex h))⟩

/-- Nodes that were cut out and are listed in the place of a child supplant it. -/
theorem supplanted_link (hf : f.Consistent) {p old : NodeId} (hp : f.parent? old = some p)
    {news : List NodeId} (hcontains : ∀ n ∈ news, f.contains n) (hold : old ∉ news)
    (change : List NodeId → List NodeId)
    (hchange : ∀ {l r}, f.children p = l ++ old :: r →
      change (l.filter (· ∉ news) ++ old :: r.filter (· ∉ news)) =
        l.filter (· ∉ news) ++ news ++ r.filter (· ∉ news)) :
    Supplanted f ((news.foldl (fun f n => f.setParent n (some p))
      ((news.foldl Forest.detach f).mapChildren p change)).setParent old none) p old news := by
  obtain ⟨hsize, hroot, hkind, hparent, hchildren⟩ := hf.foldl_detach news
  obtain ⟨hsize', hroot', hkind', hparent', hchildren'⟩ :=
    setParent_foldl p news ((news.foldl Forest.detach f).mapChildren p change)
  have hlisted : ((news.foldl Forest.detach f).mapChildren p change).size = f.size := by
    simpa [mapChildren] using hsize
  constructor
  · simpa [setParent] using hsize'.trans hlisted
  · exact hroot'.trans hroot
  · intro j
    rw [kind?_setParent, hkind', kind?_mapChildren, hkind]
  · intro j
    have hc := f.contains_of_parent? old hp
    simp only [parent?_setParent, hparent', parent?_mapChildren, hparent, contains, hsize', hlisted]
    simp only [contains] at hc hcontains
    grind
  · intro l r hlr
    have hp' : (news.foldl Forest.detach f).contains p := by
      rw [contains, hsize]
      exact hf.contains_parent hp
    rw [children_setParent, hchildren', children_mapChildren, if_pos ⟨rfl, hp'⟩, hchildren, hlr,
      List.filter_append, List.filter_cons_of_pos (by simpa using hold)]
    exact hchange hlr
  · intro j hj
    rw [children_setParent, hchildren', children_mapChildren, if_neg fun h => hj h.1.symm,
      hchildren]

end Forest

/-! ## Edits -/

namespace Edit

open Forest

variable {f : Forest}

@[simp] theorem ensures_refuse {α : Type} {d : Defect} {post : Except Error α → Forest → Prop} :
    Ensures (refuse d) f post ↔ post (.error (.malformed d)) f := Iff.rfl

theorem ensures_ask {α : Type} {question : Forest → Except Error α}
    {post : Except Error α → Forest → Prop} :
    Ensures (ask question) f post ↔ post (question f) f := by
  cases h : question f <;> simp [ask, h]

@[simp] theorem ensures_require {i : NodeId} {post : Except Error Unit → Forest → Prop} :
    Ensures (require i) f post ↔
      if f.contains i then post (.ok ()) f else post (.error (.missingNode i)) f := by
  unfold require
  by_cases h : f.contains i <;> simp [h]

theorem ensures_forM_require {is : List NodeId} {post : Except Error Unit → Forest → Prop}
    (h : ∀ i ∈ is, f.contains i) : Ensures (forM is require) f post ↔ post (.ok ()) f := by
  induction is with
  | nil => exact ensures_pure
  | cons i is ih =>
    rw [List.forM_cons, ensures_bind, ensures_require, if_pos (h i List.mem_cons_self)]
    exact ih fun j hj => h j (List.mem_cons_of_mem _ hj)

/-- Adding a leaf gives the number after the last one. -/
@[simp] theorem ensures_leaf {k : Kind} {post : Except Error NodeId → Forest → Prop} :
    Ensures (leaf k) f post ↔ post (.ok f.size) (f.grow k) := by
  simp [leaf, add, adopt]

theorem ensures_delete (hf : f.Consistent) {p i : NodeId} (hp : f.parent? i = some p)
    (hr : i ≠ f.root) : Ensures (delete i) f fun r f' => r = .ok () ∧ Supplanted f f' p i [] := by
  simp [delete, hr, f.contains_of_parent? i hp, supplanted_detach hf hp]

theorem ensures_replace (hf : f.Consistent) {p old new : NodeId} (hp : f.parent? old = some p)
    (hnew : f.contains new) (hab : ¬ f.Above new old) :
    Ensures (replace old new) f fun r f' => r = .ok () ∧ Supplanted f f' p old [new] := by
  have hne : old ≠ new := by
    rintro rfl
    exact hab .refl
  have hab' : ¬ f.isAbove new old := fun h => hab (above_of_isAbove h)
  obtain ⟨i, hindex, hi⟩ := hf.exists_indexOf? hp (List.mem_singleton.not.2 hne)
  have hlink : Supplanted f _ p old [new] :=
    supplanted_link hf hp (by simpa using hnew) (List.mem_singleton.not.2 hne) (·.set i new)
      fun hlr => by simp [hi hlr]
  simp only [List.foldl_cons, List.foldl_nil] at hindex hlink
  simp [replace, hne, hne.symm, hab', hnew, f.contains_of_parent? old hp, hp, hindex, hlink]

/-- A detached node gives way to another one as the root, if it is the root. -/
theorem ensures_replace_detached {old new : NodeId} (hp : f.parent? old = none)
    (hold : f.contains old) (hnew : f.contains new) (hab : ¬ f.Above new old) :
    Ensures (replace old new) f fun r f' => r = .ok () ∧
      f' = if old = f.root then { f.detach new with root := new } else f.detach new := by
  have hne : old ≠ new := by
    rintro rfl
    exact hab .refl
  have hab' : ¬ f.isAbove new old := fun h => hab (above_of_isAbove h)
  have hp' : (f.detach new).parent? old = none := by simp [hp]
  simp only [replace, hne, if_false, ensures_bind, ensures_get, hab', ensures_require, hold, hnew,
    if_true, ensures_modify, hp', root_detach, Bool.false_eq_true]
  split <;> simp

theorem ensures_splice (hf : f.Consistent) {p old : NodeId} {news : List NodeId}
    (hp : f.parent? old = some p) (hnews : ∀ n ∈ news, f.contains n ∧ ¬ f.Above n old) :
    Ensures (splice old news) f fun r f' => r = .ok () ∧ Supplanted f f' p old news := by
  have hold : old ∉ news := fun h => (hnews old h).2 .refl
  have hcontains : ∀ n ∈ news, f.contains n := fun n hn => (hnews n hn).1
  have hfind : news.find? (f.isAbove · old) = none :=
    List.find?_eq_none.2 fun n hn h => (hnews n hn).2 (above_of_isAbove h)
  obtain ⟨i, hindex, hi⟩ := hf.exists_indexOf? hp hold
  have hlink : Supplanted f _ p old news :=
    supplanted_link hf hp hcontains hold (fun cs => cs.take i ++ news ++ cs.drop (i + 1))
      fun hlr => by simp [hi hlr]
  simpa [splice, f.contains_of_parent? old hp, hp, hfind, ensures_forM_require hcontains, hindex]
    using hlink

end Edit

end Midend
