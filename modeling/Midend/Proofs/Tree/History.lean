import Mathlib.Data.List.Dedup
import Midend.Proofs.Tree.Edit
import Midend.Proofs.Tree.Lineage

/-!
# Histories of edits

Every edit keeps a forest consistent, whether it succeeds or stops at an error. An
edit links nodes that it has cut from their parents before, to a node that is not
below them; that is what its checks are for. An edit that stops has left the forest
that was there (`Tidy`), except that an insertion may have cut a node.

So what is made from a single node by any edits, one after the other, is a forest
(`edits_keep_forest`).
-/

namespace Midend

namespace Forest

variable {f f' : Forest}

/-! ## Links -/

/-- Consistency is a matter of the links and of the root. -/
theorem Consistent.of_links_eq (hf : f.Consistent) (hparent : ∀ i, f'.parent? i = f.parent? i)
    (hchildren : ∀ i, f'.children i = f.children i) (hroot : f'.contains f'.root) :
    f'.Consistent where
  parent?_iff := by
    intro c p
    rw [hparent, hchildren]
    exact hf.parent?_iff
  nodup_children p := by
    rw [hchildren]
    exact hf.nodup_children p
  finite := by simpa only [hparent] using hf.finite
  contains_root := hroot

/-- A detached node becomes a child of a node that is not below it. -/
theorem Consistent.attach (hf : f.Consistent) {p c : NodeId} (hc : f.parent? c = none)
    (hp : ¬ f.Above c p) (hparent : ∀ i, f'.parent? i = if i = c then some p else f.parent? i)
    (hat : (f'.children p).Perm (c :: f.children p))
    (hother : ∀ {i}, i ≠ p → f'.children i = f.children i) (hroot : f'.contains f'.root) :
    f'.Consistent where
  parent?_iff {d q} := by
    have hfree : ∀ q, c ∉ f.children q := fun q hmem => by
      simp [hf.parent?_iff.2 hmem] at hc
    have hmem : d ∈ f'.children q ↔ d = c ∧ q = p ∨ d ∈ f.children q := by
      by_cases hq : q = p
      · subst hq
        simp [hat.mem_iff]
      · simp [hother hq, hq]
    rw [hmem, hparent, ← hf.parent?_iff]
    grind
  nodup_children q := by
    by_cases hq : q = p
    · subst hq
      rw [hat.nodup_iff, List.nodup_cons]
      refine ⟨fun hmem => ?_, hf.nodup_children q⟩
      simp [hf.parent?_iff.2 hmem] at hc
    · rw [hother hq]
      exact hf.nodup_children q
  finite := by
    have hp : ∀ n ∈ [c], ¬ f.Above n p := by simpa using hp
    refine wellFounded_of_attach hf.finite hp fun {d q} hd => ?_
    rw [hparent] at hd
    grind
  contains_root := hroot

end Forest

/-! ## Single edits -/

/-- An edit has left a consistent forest and, if it has stopped, the one that was
    there. -/
structure Tidy {α : Type} (f : Forest) (r : Except Error α) (f' : Forest) : Prop where
  consistent : f'.Consistent
  eq_of_error : ∀ {e}, r = .error e → f' = f

theorem Tidy.ok {α : Type} {f f' : Forest} {a : α} (hf' : f'.Consistent) : Tidy f (.ok a) f' :=
  ⟨hf', fun h => by cases h⟩

theorem Tidy.error {α : Type} {f : Forest} {e : Error} (hf : f.Consistent) :
    Tidy (α := α) f (.error e) f :=
  ⟨hf, fun _ => rfl⟩

namespace Edit

open Forest

variable {f : Forest} (hf : f.Consistent)
include hf

theorem ensures_insert_above {p c : NodeId} (hab : f.Above c p) (index : Nat) :
    Ensures (insert p index c) f fun r f' =>
      r = .error (.malformed (.insertAbove c p)) ∧ f' = f := by
  simp [insert, hf.isAbove_iff_above.2 hab]

/-- A node is cut before it is seen that there is no such place. -/
theorem ensures_insert_pastEnd {p c : NodeId} (hp : f.contains p) (hc : f.contains c)
    (hab : ¬ f.Above c p) {index : Nat} (hlt : ((f.children p).filter (· ≠ c)).length < index) :
    Ensures (insert p index c) f fun r f' =>
      r = .error (.malformed (.insertPastEnd index p ((f.children p).filter (· ≠ c)).length)) ∧
        f' = f.detach c := by
  have hab' : ¬ f.isAbove c p := mt hf.isAbove_iff_above.1 hab
  rw [← hf.children_detach] at hlt ⊢
  simp [insert, hab', hp, hc, hlt, -Forest.children_detach]

theorem ensures_insert {p c : NodeId} (hp : f.contains p) (hc : f.contains c)
    (hab : ¬ f.Above c p) {index : Nat} (hle : index ≤ ((f.children p).filter (· ≠ c)).length) :
    Ensures (insert p index c) f fun r f' => r = .ok () ∧ f'.Consistent := by
  have hab' : ¬ f.isAbove c p := mt hf.isAbove_iff_above.1 hab
  rw [← hf.children_detach] at hle
  have hlink : ((f.detach c).link p index c).Consistent := by
    refine (hf.detach c).attach (by simp) (fun h => hab (above_of_detach h)) (fun i => ?_) ?_
      (fun {i} hi => ?_) ?_
    · rw [link, parent?_setParent, parent?_mapChildren]
      simp [contains, mapChildren] at hc ⊢
      grind
    · rw [link, children_setParent, children_mapChildren,
        if_pos ⟨rfl, by simpa [contains] using hp⟩]
      exact List.perm_insertIdx c _ hle
    · rw [link, children_setParent, children_mapChildren, if_neg fun h => hi h.1.symm]
    · simpa [contains, link, setParent, mapChildren] using hf.contains_root
  simpa [insert, hab', hp, hc, Nat.not_lt.2 hle, -Forest.children_detach] using hlink

theorem consistent_insert {p c : NodeId} (hp : f.contains p) (hc : f.contains c) (index : Nat) :
    Ensures (insert p index c) f fun _ f' => f'.Consistent := by
  by_cases hab : f.Above c p
  · exact (ensures_insert_above hf hab index).mono fun _ _ h => h.2 ▸ hf
  rcases Nat.lt_or_ge ((f.children p).filter (· ≠ c)).length index with hlt | hle
  · exact (ensures_insert_pastEnd hf hp hc hab hlt).mono fun _ _ h => h.2 ▸ hf.detach c
  · exact (ensures_insert hf hp hc hab hle).mono fun _ _ h => h.2

/-- The place after the last child is never past the end. -/
theorem tidy_push {p c : NodeId} (hp : f.contains p) (hc : f.contains c) :
    Ensures (push p c) f (Tidy f) := by
  have hpush : ∀ {post}, Ensures (push p c) f post ↔ Ensures (insert p
      (if f.parent? c = some p then (f.children p).length - 1 else (f.children p).length) c)
      f post := by
    simp [push, hp, hc]
  rw [hpush]
  by_cases hab : f.Above c p
  · refine (ensures_insert_above hf hab _).mono ?_
    rintro _ _ ⟨rfl, rfl⟩
    exact .error hf
  · refine (ensures_insert hf hp hc hab ?_).mono ?_
    · rw [← hf.children_detach, Forest.children_detach]
      split
      next hpc =>
        have herase : (f.children p).filter (· ≠ c) = (f.children p).erase c := by
          rw [(hf.nodup_children p).erase_eq_filter]
          exact List.filter_congr fun d _ => by grind
        rw [herase, List.length_erase_of_mem (hf.parent?_iff.1 hpc)]
      next => rfl
    · rintro _ _ ⟨rfl, hf'⟩
      exact .ok hf'

theorem tidy_replace {old new : NodeId} (hold : f.contains old) (hnew : f.contains new) :
    Ensures (replace old new) f (Tidy f) := by
  by_cases heq : old = new
  · simpa [replace, heq] using Tidy.ok hf
  by_cases hab : f.isAbove new old
  · simpa [replace, heq, hab] using Tidy.error hf
  have hab' : ¬ f.Above new old := mt hf.isAbove_iff_above.2 hab
  cases hp : f.parent? old with
  | none =>
    have hcut := hf.detach new
    refine (ensures_replace_detached hp hold hnew hab').mono ?_
    rintro _ _ ⟨rfl, rfl⟩
    refine .ok ?_
    split
    · refine hcut.of_links_eq (fun _ => rfl) (fun _ => rfl) ?_
      change (f.detach new).contains new
      rwa [contains, size_detach]
    · exact hcut
  | some p =>
    refine (ensures_replace hf hp hnew hab').mono ?_
    rintro _ _ ⟨rfl, hs⟩
    exact .ok (hf.supplant hs hp (List.nodup_singleton new) (by simpa using hab'))

theorem tidy_delete {i : NodeId} (hi : f.contains i) : Ensures (delete i) f (Tidy f) := by
  by_cases hroot : i = f.root
  · simpa [delete, hroot] using Tidy.error hf
  · simpa [delete, hroot, hi] using Tidy.ok (hf.detach i)

/-- Nodes are cut only when it is certain that they can be put in the place of the old
    one; they may be named more than once. -/
theorem ensures_splice_cases {old : NodeId} {news : List NodeId}
    (hnews : ∀ n ∈ news, f.contains n) :
    Ensures (splice old news) f fun r f' => (∃ e, r = .error e ∧ f' = f) ∨
      r = .ok () ∧ ∃ p, f.parent? old = some p ∧ (∀ n ∈ news, ¬ f.Above n old) ∧
        Supplanted f f' p old news := by
  by_cases hold : f.contains old
  swap
  · simp [splice, hold]
  cases hp : f.parent? old with
  | none => simp [splice, hold, hp]
  | some p =>
    cases hfind : news.find? (f.isAbove · old) with
    | some n => simp [splice, hold, hp, hfind]
    | none =>
      have hab : ∀ n ∈ news, ¬ f.Above n old := fun n hn ha =>
        List.find?_eq_none.1 hfind n hn (hf.isAbove_iff_above.2 ha)
      exact (ensures_splice hf hp fun n hn => ⟨hnews n hn, hab n hn⟩).mono fun r f' h =>
        .inr ⟨h.1, p, rfl, hab, h.2⟩

theorem consistent_splice {old : NodeId} {news : List NodeId}
    (hnews : ∀ n ∈ news, f.contains n) (hnodup : news.Nodup) :
    Ensures (splice old news) f fun _ f' => f'.Consistent := by
  refine (ensures_splice_cases hf hnews).mono ?_
  rintro _ _ (⟨e, rfl, rfl⟩ | ⟨rfl, p, hp, hab, hs⟩)
  · exact hf
  · exact hf.supplant hs hp hnodup hab

theorem tidy_setAttribute {i : NodeId} (hi : f.contains i) (name value : String) :
    Ensures (setAttribute i name value) f (Tidy f) := by
  obtain ⟨k, hk⟩ := Option.isSome_iff_exists.1 ((f.isSome_kind?_iff i).2 hi)
  have hset : ∀ k, (f.setKind i k).Consistent := fun k =>
    hf.of_links_eq (by simp) (by simp) (by simpa [contains, setKind] using hf.contains_root)
  cases ha : k.setAttribute name value with
  | error e => simpa [setAttribute, hk, ensures_ask, ha] using Tidy.error hf
  | ok k' => simpa [setAttribute, hk, ensures_ask, ha] using Tidy.ok (hset k')

/-- A parentless node gets another one as its last child. -/
theorem consistent_adoptLast {p c : NodeId} (hp : f.contains p) (htop : f.parent? p = none)
    (hc : f.contains c) (hne : c ≠ p) :
    (((f.detach c).setParent c (some p)).mapChildren p (· ++ [c])).Consistent := by
  have hab : ¬ (f.detach c).Above c p := fun h =>
    hne (h.eq_of_parent_none (by simp [htop])).symm
  refine (hf.detach c).attach (by simp) hab (fun i => ?_) ?_ (fun {i} hi => ?_) ?_
  · rw [parent?_mapChildren, parent?_setParent]
    simp [contains] at hc ⊢
    grind
  · rw [children_mapChildren, children_setParent,
      if_pos ⟨rfl, by simpa [contains, setParent] using hp⟩]
    exact List.perm_append_singleton c _
  · rw [children_mapChildren, children_setParent, if_neg fun h => hi h.1.symm]
  · simpa [contains, setParent, mapChildren] using hf.contains_root

/-- A parentless node adopts other nodes, after those that it has and that are not among
    them. A node that is named more than once is there once, at the last of its places. -/
theorem ensures_adopt {p : NodeId} {cs : List NodeId} (hp : f.contains p)
    (htop : f.parent? p = none) (hcs : ∀ c ∈ cs, f.contains c ∧ c ≠ p) :
    Ensures (adopt p cs) f fun r f' => r = .ok () ∧ f'.Consistent ∧
      f'.children p = (f.children p).filter (· ∉ cs) ++ cs.dedup := by
  induction cs generalizing f with
  | nil => simpa [adopt] using hf
  | cons c cs ih =>
    obtain ⟨hc, hne⟩ := hcs c List.mem_cons_self
    have hsize : (((f.detach c).setParent c (some p)).mapChildren p (· ++ [c])).size = f.size := by
      simp [setParent, mapChildren]
    have hchildren : (((f.detach c).setParent c (some p)).mapChildren p (· ++ [c])).children p =
        (f.children p).filter (· ≠ c) ++ [c] := by
      rw [children_mapChildren, if_pos ⟨rfl, by simpa [contains, setParent] using hp⟩,
        children_setParent, hf.children_detach]
    simp only [adopt, ensures_bind, ensures_require, hc, if_true, ensures_modify]
    refine (ih (consistent_adoptLast hf hp htop hc hne) (by rwa [contains, hsize]) ?_
      fun d hd => ?_).mono fun r f' h => ⟨h.1, h.2.1, ?_⟩
    · simp [htop, hne]
    · rw [contains, hsize]
      exact hcs d (List.mem_cons_of_mem _ hd)
    · have hrest : (f.children p).filter (fun d => decide (d ∉ cs) && decide (d ≠ c)) =
          (f.children p).filter (· ∉ c :: cs) := List.filter_congr fun d _ => by grind
      rw [h.2.2, hchildren, List.filter_append, List.filter_filter, hrest]
      by_cases hmem : c ∈ cs
      · rw [List.dedup_cons_of_mem hmem]
        simp [hmem]
      · rw [List.dedup_cons_of_notMem hmem]
        simp [hmem]

/-- A new node has the nodes it was given as its children, each of them once. -/
theorem ensures_add (k : Kind) {cs : List NodeId} (hcs : ∀ c ∈ cs, f.contains c) :
    Ensures (add k cs) f fun r f' => r = .ok f.size ∧ f'.Consistent ∧
      f'.children f.size = cs.dedup := by
  have htop : f.parent? f.size = none := f.parent?_eq_none _ (by simp [contains_iff])
  have hcs' : ∀ c ∈ cs, (f.grow k).contains c ∧ c ≠ f.size := by
    intro c hc
    have hlt := contains_iff.1 (hcs c hc)
    rw [contains_iff, size_grow]
    exact ⟨Nat.lt_succ_of_lt hlt, Nat.ne_of_lt hlt⟩
  have hadopt := ensures_adopt (hf.grow k) (by simp [contains]) (by rwa [parent?_grow]) hcs'
  simp only [add, ensures_bind, ensures_get, ensures_modify]
  refine hadopt.mono fun r f' h => ?_
  obtain ⟨rfl, hf', hchildren⟩ := h
  refine ⟨rfl, hf', ?_⟩
  rw [hchildren, children_grow, f.children_eq_nil _ (by simp [contains_iff]), List.filter_nil,
    List.nil_append]

end Edit

/-! ## Edits in a row -/

/-- An edit and what it is applied to. -/
inductive Change
  | add (kind : Kind) (children : List NodeId)
  | leaf (kind : Kind)
  | push (parent child : NodeId)
  | insert (parent : NodeId) (index : Nat) (child : NodeId)
  | replace (old new : NodeId)
  | delete (id : NodeId)
  | splice (target : NodeId) (news : List NodeId)
  | setAttribute (id : NodeId) (name value : String)

namespace Change

/-- Makes the edit. -/
def perform : Change → Edit Unit
  | add kind children => discard (Edit.add kind children)
  | leaf kind => discard (Edit.leaf kind)
  | push parent child => Edit.push parent child
  | insert parent index child => Edit.insert parent index child
  | replace old new => Edit.replace old new
  | delete id => Edit.delete id
  | splice target news => Edit.splice target news
  | setAttribute id name value => Edit.setAttribute id name value

/-- The nodes that the edit names. -/
def named : Change → List NodeId
  | add _ children => children
  | leaf _ => []
  | push parent child => [parent, child]
  | insert parent _ child => [parent, child]
  | replace old new => [old, new]
  | delete id => [id]
  | splice target news => target :: news
  | setAttribute id _ _ => [id]

/-- The list of nodes that the edit puts in the place of one. -/
def placed : Change → List NodeId
  | splice _ news => news
  | _ => []

/-- The edit names nodes that there are, and puts none of them twice in the place of
    another. -/
def Admissible (f : Forest) (c : Change) : Prop :=
  (∀ i ∈ c.named, f.contains i) ∧ c.placed.Nodup

instance (f : Forest) (c : Change) : Decidable (c.Admissible f) :=
  inferInstanceAs (Decidable (_ ∧ _))

/-- Every edit keeps a forest consistent, also one that stops at an error. -/
theorem consistent_perform {f : Forest} (hf : f.Consistent) {c : Change} (h : c.Admissible f) :
    (after c.perform f).Consistent := by
  suffices h : Ensures c.perform f fun _ f' => f'.Consistent from h.after.elim fun _ hf' => hf'
  obtain ⟨hnamed, hnodup⟩ := h
  have hdiscard : ∀ {x : Edit NodeId}, (Ensures x f fun _ f' => f'.Consistent) →
      Ensures (discard x) f fun _ f' => f'.Consistent := fun h => by
    rw [ensures_discard]
    exact h.mono fun r f' h => by cases r <;> exact h
  cases c with
  | add kind children => exact hdiscard ((Edit.ensures_add hf kind hnamed).mono fun _ _ h => h.2.1)
  | leaf kind => exact hdiscard ((Edit.ensures_add hf kind (by simp)).mono fun _ _ h => h.2.1)
  | push parent child =>
    exact (Edit.tidy_push hf (hnamed parent (by simp [named]))
      (hnamed child (by simp [named]))).mono fun _ _ h => h.consistent
  | insert parent index child =>
    exact Edit.consistent_insert hf (hnamed parent (by simp [named]))
      (hnamed child (by simp [named])) index
  | replace old new =>
    exact (Edit.tidy_replace hf (hnamed old (by simp [named]))
      (hnamed new (by simp [named]))).mono fun _ _ h => h.consistent
  | delete id =>
    exact (Edit.tidy_delete hf (hnamed id (by simp [named]))).mono fun _ _ h => h.consistent
  | splice target news =>
    exact Edit.consistent_splice hf (fun n hn => hnamed n (List.mem_cons_of_mem _ hn)) hnodup
  | setAttribute id name value =>
    exact (Edit.tidy_setAttribute hf (hnamed id (by simp [named])) name value).mono
      fun _ _ h => h.consistent

end Change

namespace Forest

/-- The forest after the edits of a history, each made in what the one before has left. -/
def performAll (f : Forest) (history : List Change) : Forest :=
  history.foldl (fun f c => after c.perform f) f

/-- Each edit of the history is admissible when its turn comes. -/
def Admits : Forest → List Change → Prop
  | _, [] => True
  | f, c :: history => c.Admissible f ∧ (after c.perform f).Admits history

instance decidableAdmits : ∀ (f : Forest) (history : List Change), Decidable (f.Admits history)
  | _, [] => .isTrue trivial
  | f, c :: history =>
    have := decidableAdmits (after c.perform f) history
    inferInstanceAs (Decidable (_ ∧ _))

theorem Consistent.performAll {f : Forest} (hf : f.Consistent) {history : List Change}
    (h : f.Admits history) : (f.performAll history).Consistent := by
  induction history generalizing f with
  | nil => exact hf
  | cons c history ih => exact ih (Change.consistent_perform hf h.1) h.2

theorem consistent_single (k : Kind) : (single k).Consistent :=
  consistent_of_ordered Nat.zero_lt_one
    (fun c hc p hp => by
      obtain rfl : c = 0 := Nat.lt_one_iff.1 hc
      cases hp)
    (fun p hp => by
      obtain rfl : p = 0 := Nat.lt_one_iff.1 hp
      exact ⟨.nil, fun c hc => absurd hc List.not_mem_nil⟩)

/-- What any edits make of a single node, whether they succeed or stop, is a forest: parents
    and children agree and are nodes of it, no node is listed twice, and a walk upwards ends,
    at a node without a parent and without meeting a node again, so that its limit has no
    effect. -/
theorem edits_keep_forest (k : Kind) {history : List Change} (h : (single k).Admits history) :
    let f := (single k).performAll history
    (∀ c p, f.parent? c = some p ↔ c ∈ f.children p) ∧
    (∀ p, (f.children p).Nodup) ∧
    (WellFounded fun p c => f.parent? c = some p) ∧
    (∀ c p, f.parent? c = some p → ¬ f.Above c p) ∧
    (∀ a i, f.isAbove a i ↔ f.Above a i) ∧
    (∀ i, f.inProgram i ↔ f.Above f.root i) ∧
    (∀ i, (∃ top, (f.lineage i).getLast? = some top ∧ f.parent? top = none) ∧
      ∀ n, f.size < n → f.lineageWithin n i = f.lineage i) ∧
    (∀ c p, c ∈ f.children p ∨ f.parent? c = some p → f.contains c ∧ f.contains p) ∧
    f.contains f.root := by
  intro f
  have hf : f.Consistent := (consistent_single k).performAll h
  refine ⟨fun _ _ => hf.parent?_iff, hf.nodup_children, hf.finite, fun _ _ => hf.not_above_parent,
    fun _ _ => hf.isAbove_iff_above, fun _ => hf.isAbove_iff_above,
    fun i => ⟨hf.exists_top i, fun n hn => hf.lineageWithin_eq hn i⟩, fun c p hcp => ?_,
    hf.contains_root⟩
  have hp : f.parent? c = some p := hcp.elim hf.parent?_iff.2 id
  exact ⟨f.contains_of_parent? c hp, hf.contains_parent hp⟩

/-- Edits of which two stop: putting the root below its child is refused at once, and a
    place past the end only when the node has been cut. -/
def fumbling : List Change :=
  [.add (.identifier "x") [], .add .negation [1, 1], .push 0 2, .push 2 0, .insert 0 5 2,
    .leaf .block, .push 0 3, .splice 3 [1, 2], .replace 0 2, .setAttribute 1 "value" "y"]

theorem edits_keep_forest_fumbling :
    (single .block).Admits fumbling ∧
    let f := (single .block).performAll fumbling
    f.root = 2 ∧ f.children 0 = [1] ∧ (∀ i p, f.parent? i = some p ↔ i ∈ f.children p) ∧
      ∀ a i, f.isAbove a i ↔ f.Above a i := by
  have h : (single .block).Admits fumbling := by decide +kernel
  obtain ⟨hlinks, -, -, -, habove, -⟩ := edits_keep_forest .block h
  exact ⟨h, by decide +kernel, by decide +kernel, hlinks, habove⟩

end Forest

end Midend
