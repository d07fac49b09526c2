import Midend.Proofs.Tree.Placement

/-!
# Edits that fail

An edit checks what it is asked for and then changes the forest, so that an edit that
fails has changed nothing. The one exception is an insertion: whether there is such a
place among the children is seen only when the node has been cut from its parent, since
it may be one of them. A node that is to be put past the end is thus lost to its parent
(`Change.LosesChild`), and this is the only way in which an edit that fails leaves another
forest (`failed_edit_keeps_forest_iff`).
-/

namespace Midend

namespace Forest

theorem detach_of_parent_none {f : Forest} {i : NodeId} (h : f.parent? i = none) :
    f.detach i = f := by
  rw [detach, h]

/-- Cutting a node from its parent changes the forest. -/
theorem detach_ne {f : Forest} {i : NodeId} (h : f.parent? i ≠ none) : f.detach i ≠ f := by
  intro heq
  have hparent := f.parent?_detach i i
  rw [heq, if_pos rfl] at hparent
  exact h hparent

end Forest

namespace Change

variable {f f' : Forest}

/-- The edit asks for a place past the end of the list that is left when a child has been
    cut from its parent, and is not refused before. -/
def LosesChild (f : Forest) : Change → Prop
  | insert parent index child => ¬ f.Above child parent ∧ f.parent? child ≠ none ∧
      ((f.children parent).filter (· ≠ child)).length < index
  | _ => False

/-- What is left of a forest by an insertion that fails. -/
theorem insert_eq_error (hf : f.Consistent) {parent child : NodeId} {index : Nat} {e : Error}
    (hp : f.contains parent) (hc : f.contains child)
    (h : Edit.insert parent index child f = .error e f') :
    f' = f ∧ ¬ LosesChild f (.insert parent index child) ∨
      f' = f.detach child ∧ LosesChild f (.insert parent index child) := by
  by_cases hab : f.Above child parent
  · have hkept := (Edit.ensures_insert_above hf hab index).of_eq_error h
    exact .inl ⟨hkept.2, fun hl => hl.1 hab⟩
  rcases Nat.lt_or_ge ((f.children parent).filter (· ≠ child)).length index with hlt | hle
  · obtain ⟨-, hcut⟩ := (Edit.ensures_insert_pastEnd hf hp hc hab hlt).of_eq_error h
    by_cases hfree : f.parent? child = none
    · -- A detached node has nothing to lose.
      exact .inl ⟨hcut.trans (Forest.detach_of_parent_none hfree), fun hl => hl.2.1 hfree⟩
    · exact .inr ⟨hcut, hab, hfree, hlt⟩
  · cases ((Edit.ensures_insert hf hp hc hab hle).of_eq_error h).1

/-- An edit that fails has left the forest as it was, or is an insertion. -/
theorem eq_or_insert_of_perform_eq_error (hf : f.Consistent) {c : Change} {e : Error}
    (hnamed : ∀ i ∈ c.named, f.contains i) (h : c.perform f = .error e f') :
    f' = f ∧ ¬ c.LosesChild f ∨ ∃ parent index child, c = .insert parent index child := by
  have hadd : ∀ {kind : Kind} {children : List NodeId}, (∀ i ∈ children, f.contains i) →
      discard (Edit.add kind children) f ≠ .error e f' := by
    intro kind children hchildren heq
    have hok : Ensures (discard (Edit.add kind children)) f fun r _ => r = .ok () := by
      rw [ensures_discard]
      exact (Edit.ensures_add hf kind hchildren).mono fun r _ hr => by rw [hr.1]
    cases hok.of_eq_error heq
  cases c with
  | add kind children => exact absurd h (hadd hnamed)
  | leaf kind => exact absurd h (hadd (by simp))
  | insert parent index child => exact .inr ⟨parent, index, child, rfl⟩
  | push parent child =>
    have htidy := Edit.tidy_push hf (hnamed parent (by simp [named]))
      (hnamed child (by simp [named]))
    exact .inl ⟨(htidy.of_eq_error h).eq_of_error rfl, id⟩
  | replace old new =>
    have htidy := Edit.tidy_replace hf (hnamed old (by simp [named]))
      (hnamed new (by simp [named]))
    exact .inl ⟨(htidy.of_eq_error h).eq_of_error rfl, id⟩
  | delete i =>
    have htidy := Edit.tidy_delete hf (hnamed i (by simp [named]))
    exact .inl ⟨(htidy.of_eq_error h).eq_of_error rfl, id⟩
  | splice target news =>
    have hnews : ∀ n ∈ news, f.contains n := fun n hn => hnamed n (List.mem_cons_of_mem _ hn)
    rcases (Edit.ensures_splice_cases hf hnews).of_eq_error h with ⟨_, -, hkept⟩ | ⟨hok, -⟩
    · exact .inl ⟨hkept, id⟩
    · cases hok
  | setAttribute i name value =>
    have htidy := Edit.tidy_setAttribute hf (hnamed i (by simp [named])) name value
    exact .inl ⟨(htidy.of_eq_error h).eq_of_error rfl, id⟩

/-- An edit that fails leaves the forest as it is, unless it is an insertion past the end
    of a node that has a parent: this one has then cut the node from its parent. -/
theorem failed_edit_keeps_forest_iff (hf : f.Consistent) {c : Change} {e : Error}
    (hnamed : ∀ i ∈ c.named, f.contains i) (h : c.perform f = .error e f') :
    (f' = f ↔ ¬ c.LosesChild f) ∧
    ∀ parent index child, c = .insert parent index child → c.LosesChild f →
      f' = f.detach child := by
  rcases eq_or_insert_of_perform_eq_error hf hnamed h with ⟨hkept, hl⟩ | ⟨parent, index, child, rfl⟩
  · exact ⟨iff_of_true hkept hl, fun _ _ _ _ hl' => absurd hl' hl⟩
  · have hinsert := insert_eq_error hf (hnamed parent (by simp [named]))
      (hnamed child (by simp [named])) h
    rcases hinsert with ⟨hkept, hl⟩ | ⟨hcut, hl⟩
    · exact ⟨iff_of_true hkept hl, fun _ _ _ _ hl' => absurd hl' hl⟩
    · refine ⟨iff_of_false ?_ (not_not_intro hl), ?_⟩
      · rw [hcut]
        exact Forest.detach_ne hl.2.1
      · rintro _ _ _ ⟨⟩ -
        exact hcut

/-- The root cannot be put below its child, nor the first child past the end of the
    second one. -/
theorem failed_edit_keeps_forest_iff_twoStatements :
    let f := Forest.twoStatements
    f.Consistent ∧ (∃ e f', (push 2 0).perform f = .error e f' ∧ f' = f) ∧
      ∃ e f', (insert 2 1 1).perform f = .error e f' ∧ f' = f.detach 1 := by
  intro f
  have hf : f.Consistent := Forest.consistent_twoStatements
  have hpush : (push 2 0).perform f = .error (.malformed (.insertAbove 0 2)) f := rfl
  have hinsert : (insert 2 1 1).perform f =
    .error (.malformed (.insertPastEnd 1 2 0)) (f.detach 1) := rfl
  have hl : (insert 2 1 1).LosesChild f := by
    refine ⟨?_, by decide +kernel, by decide +kernel⟩
    rw [← hf.isAbove_iff_above]
    decide +kernel
  refine ⟨hf, ⟨_, _, hpush, ?_⟩, ⟨_, _, hinsert, ?_⟩⟩
  · exact (failed_edit_keeps_forest_iff hf (by decide +kernel) hpush).1.2 id
  · exact (failed_edit_keeps_forest_iff hf (by decide +kernel) hinsert).2 2 1 1 rfl hl

/-- The first statement is lost when it cannot be put into the second one. -/
theorem failed_insertion_loses_statement :
    let f := Forest.twoStatements
    f.Consistent ∧ (∀ i ∈ (insert 2 1 1).named, f.contains i) ∧
      ∃ e f', (insert 2 1 1).perform f = .error e f' ∧ f' ≠ f ∧
        f.children 0 = [1, 2] ∧ f'.children 0 = [2] :=
  ⟨Forest.consistent_twoStatements, by decide +kernel, _, _, rfl, by decide +kernel, rfl,
    by decide +kernel⟩

end Change

end Midend
