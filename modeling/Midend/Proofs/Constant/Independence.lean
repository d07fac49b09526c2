import Midend.Proofs.Constant.Unnumbered
import Midend.Proofs.Tree.Preorder

/-!
# Methods are independent

Propagation through a method is a reduction of its tree, so it changes nothing but what
is below the method, and what it makes of the method depends on nothing but that tree
(`Tree.Propagated`). So methods none of which is below another one can be treated in any
surroundings, and after any others (`Edit.ensures_propagateMethods`): what becomes of
each one is what becomes of a copy of it that is a program of its own
(`Edit.ensures_propagateProgram_copy`).

The nodes that are made for one method take up numbers, and so those of the next one
are different from the numbers in its copy. Trees are therefore compared with their
numbers erased.
-/

namespace Midend

/-! ## What becomes of a method -/

namespace Tree

/-- Propagation that starts with nothing makes the second tree of the first one, and
    tells whether anything changed. -/
def Propagated (t u : Tree) (changed : Bool) : Prop :=
  ∃ K ds, Propagates (.of (t.subtrees.filterMap declares?)) t.kind.holdsStatements ∅ t.children ds
    (.ok (K, changed)) ∧ u = .node t.root t.kind ds

theorem Propagated.root_eq {t u : Tree} {b : Bool} (h : t.Propagated u b) : u.root = t.root := by
  obtain ⟨K, ds, -, rfl⟩ := h
  rfl

theorem Propagated.changed_unique {t u u' : Tree} {b b' : Bool} (h : t.Propagated u b)
    (h' : t.Propagated u' b') : b = b' := by
  obtain ⟨K, ds, hds, -⟩ := h
  obtain ⟨K', ds', hds', -⟩ := h'
  cases (hds.congr hds' rfl).2
  rfl

end Tree

namespace Edit

open Forest

variable {f g : Forest} {t : Tree}

/-- What becomes of a method is told by its tree. -/
theorem ensures_propagateAlone_tree (h : f.Shows t) :
    Ensures (propagateAlone t.root) f fun x f' =>
      ∃ ds r, Propagates (.of (t.subtrees.filterMap Tree.declares?)) t.kind.holdsStatements ∅
        t.children ds r ∧ Reduces f t f' (.node t.root t.kind ds) ∧ x = r.map Prod.snd := by
  rw [← h.reads.declared_eq_of_subtrees h.consistent]
  cases t
  exact ensures_propagateAlone h

/-- A method of the program becomes what propagation makes of its tree, and all else
    stays. -/
theorem ensures_propagateAlone_reads (hf : f.Consistent) (ht : f.Reads t)
    (hprogram : f.Above f.root t.root) :
    Ensures (propagateAlone t.root) f fun x f' =>
      f.Confined [t.root] f' ∧ ∀ b, x = .ok b → ∃ u, t.Propagated u b ∧ f'.Reads u := by
  obtain ⟨p, hp⟩ := hf.exists_carries
  obtain ⟨u, hu, hut⟩ : ∃ u ∈ p.subtrees, u.root = t.root :=
    List.mem_map.1 ((hf.mem_ids_iff hp.reads).2 (hp.root_eq ▸ hprogram))
  obtain rfl := (hp.reads.of_mem_subtrees hu).eq_of_root_eq ht hut
  obtain ⟨ls, rfl⟩ := Context.exists_enclose hu
  refine (ensures_propagateAlone_tree hp.shows_of_enclose).mono ?_
  rintro x f' ⟨ds, r, hds, hreduces, rfl⟩
  refine ⟨hreduces.confined, fun b hb => ?_⟩
  cases r with
  | error e => cases hb
  | ok a =>
    cases hb
    exact ⟨_, ⟨a.1, ds, hds, rfl⟩, hreduces.shows.reads⟩

/-- Methods that are apart become what propagation makes of their trees, whatever it makes
    of the others, and all else stays. -/
theorem ensures_propagateMethods {ts : List Tree} (hf : f.Consistent) (hts : f.Apart ts) :
    Ensures (visitAll propagateAlone (ts.map Tree.root)) f fun x f' =>
      f.Confined (ts.map Tree.root) f' ∧
      ∀ b, x = .ok b → (∀ t ∈ ts, ∃ u c, t.Propagated u c ∧ f'.Reads u) ∧
        (b = true ↔ ∃ t ∈ ts, ∃ u, t.Propagated u true) := by
  induction ts generalizing f with
  | nil =>
    refine ⟨.refl hf _, fun b hb => ?_⟩
    cases hb
    simp
  | cons t ts ih =>
    have hstep := ensures_propagateAlone_reads hf (hts.reads t List.mem_cons_self)
      (hts.above t List.mem_cons_self)
    have hmono : ∀ {f₁}, f.Confined [t.root] f₁ → f.Confined ((t :: ts).map Tree.root) f₁ :=
      fun h => (Confined.refl hf _).trans hf (by simp) h
    refine hstep.bind ?_ fun _ _ h => ⟨hmono h.1, nofun⟩
    rintro b₁ f₁ ⟨hc₁, htree⟩
    obtain ⟨u, hu, hread⟩ := htree b₁ rfl
    obtain ⟨hts₁, hseparate⟩ := hts.of_confined hf hc₁
    have hboth : ∀ {f₂}, f₁.Confined (ts.map Tree.root) f₂ →
        f.Confined ((t :: ts).map Tree.root) f₂ :=
      fun h => (hmono hc₁).trans hf (List.subset_cons_self _ _) h
    refine (ih hc₁.consistent hts₁).bind ?_ fun _ _ h => ⟨hboth h.1, nofun⟩
    rintro b₂ f₂ ⟨hc₂, hrest⟩
    refine ⟨hboth hc₂, fun b hb => ?_⟩
    cases hb
    obtain ⟨htrees, hchanged⟩ := hrest b₂ rfl
    -- The first tree is as its own visit has left it.
    have hread₂ : f₂.Reads u := by
      refine hc₂.reads hc₁.consistent hread fun m hm => ?_
      obtain ⟨v, hv, rfl⟩ := List.mem_map.1 hm
      rw [hu.root_eq]
      exact (hseparate v hv).symm
    have hhere : b₁ = true ↔ ∃ u, t.Propagated u true := by
      refine ⟨?_, fun ⟨w, hw⟩ => hu.changed_unique hw⟩
      rintro rfl
      exact ⟨u, hu⟩
    refine ⟨List.forall_mem_cons.2 ⟨⟨u, b₁, hu, hread₂⟩, htrees⟩, ?_⟩
    simp only [Bool.or_eq_true, hhere, hchanged, List.mem_cons, exists_eq_or_imp]

end Edit

/-! ## A method alone -/

namespace Forest

variable {f g : Forest} {t u : Tree}

/-- A method below which there is no other one is the only one in its tree. -/
theorem Reads.methods_eq_singleton (hf : f.Consistent) (h : f.Reads t) (ht : t.root ∈ f.methods)
    (hnest : ∀ n ∈ f.methods, f.Above t.root n → t.root = n) : t.methods = [t] := by
  obtain ⟨hprogram, hmethod⟩ := List.mem_filter.1 ht
  rw [h.kind?_eq] at hmethod
  cases t with
  | node i k cs =>
    obtain ⟨hi, -⟩ := List.nodup_cons.1 (Tree.ids_node i k cs ▸ hf.nodup_ids h)
    rw [Tree.methods_node, if_pos (by simpa using hmethod), List.append_right_eq_self]
    refine List.flatMap_eq_nil_iff.2 fun c hc => ?_
    by_contra hne
    obtain ⟨w, hw⟩ := List.exists_mem_of_ne_nil _ hne
    obtain ⟨hw, hkind⟩ := List.mem_filter.1 hw
    have hid : w.root ∈ cs.flatMap Tree.ids := List.mem_flatMap.2 ⟨c, hc, List.mem_map_of_mem hw⟩
    have habove : f.Above i w.root :=
      hf.above_of_mem_ids h (Tree.ids_node i k cs ▸ List.mem_cons_of_mem i hid)
    have hwm : w.root ∈ f.methods := by
      refine List.mem_filter.2 ⟨hf.mem_program_iff.2 ?_, ?_⟩
      · exact habove.trans (hf.mem_program_iff.1 hprogram)
      · rw [((h.of_mem_children hc).of_mem_subtrees hw).kind?_eq]
        exact hkind
    obtain rfl : i = w.root := hnest _ hwm habove
    exact hi hid

/-- A copy of a tree with one method, which is all of it, has one method, too. -/
theorem Carries.methods_eq_of_copy (h : g.Carries u) (hcopy : u.erase = t.erase)
    (halone : t.methods = [t]) : g.methods = [u.root] := by
  have hmem : t ∈ t.methods := halone ▸ List.mem_singleton_self t
  have hmethod : t.kind.isMethod := (List.mem_filter.1 hmem).2
  have hlength : u.methods.length = 1 := by
    rw [← List.length_map Tree.erase, ← Tree.methods_erase, hcopy, Tree.methods_erase, halone]
    rfl
  rw [h.methods_eq]
  rw [← Tree.kind_erase, ← hcopy, Tree.kind_erase] at hmethod
  cases u with
  | node i k cs =>
    rw [Tree.methods_node, if_pos (show k.isMethod from hmethod)] at hlength ⊢
    rw [List.eq_nil_of_length_eq_zero (l := cs.flatMap Tree.methods) (by simpa using hlength)]
    rfl

end Forest

/-- A program that is a copy of a method, with no other method in it, becomes a copy of
    what propagation makes of the method. -/
theorem Edit.ensures_propagateProgram_copy {g : Forest} {t u v : Tree} {b : Bool}
    (h : g.Carries u) (hcopy : u.erase = t.erase) (halone : t.methods = [t])
    (hv : t.Propagated v b) :
    Ensures propagateProgram g fun x g' => x = .ok b ∧ ∃ w, g'.Carries w ∧ w.erase = v.erase := by
  obtain ⟨K, ds, hds, rfl⟩ := hv
  have hkind : u.kind = t.kind := by rw [← Tree.kind_erase, hcopy, Tree.kind_erase]
  have hchildren : t.children.map Tree.erase = u.children.map Tree.erase := by
    rw [← Tree.children_erase, ← hcopy, Tree.children_erase]
  have hdeclared : u.subtrees.filterMap Tree.declares? = t.subtrees.filterMap Tree.declares? := by
    rw [← Tree.filterMap_subtrees_erase Tree.declares?_erase, hcopy,
      Tree.filterMap_subtrees_erase Tree.declares?_erase]
  rw [propagateProgram_eq, ensures_bind, ensures_get]
  simp only [h.methods_eq_of_copy hcopy halone, visitAll_singleton]
  refine (ensures_propagateAlone_tree h.shows).mono ?_
  rintro x g' ⟨es, r, hes, hreduces, rfl⟩
  rw [hdeclared, hkind] at hes
  obtain ⟨heq, rfl⟩ := hds.congr hes hchildren
  refine ⟨rfl, _, hreduces.carries h, ?_⟩
  simp [hkind, heq]

/-- Methods none of which is below another one are trees apart. -/
theorem Forest.Carries.apart_methods {f : Forest} {p : Tree} (h : f.Carries p)
    (hnest : ∀ m ∈ f.methods, ∀ n ∈ f.methods, f.Above m n → m = n) : f.Apart p.methods := by
  have hmem : ∀ t ∈ p.methods, t.root ∈ f.methods := fun t ht =>
    h.methods_eq ▸ List.mem_map_of_mem ht
  have hnodup : (p.methods.map Tree.root).Nodup := by
    rw [← h.methods_eq]
    exact h.consistent.nodup_program.filter _
  refine ⟨fun t ht => h.reads.of_mem_subtrees (List.mem_of_mem_filter ht), fun t ht => ?_, ?_⟩
  · exact h.consistent.mem_program_iff.1 (List.mem_of_mem_filter (hmem t ht))
  · refine (List.pairwise_map.1 hnodup).imp_of_mem fun {t u} ht hu hne => ?_
    refine ⟨fun ha => ?_, fun ha => ?_⟩
    · exact hne (hnest _ (hmem t ht) _ (hmem u hu) ha)
    · exact hne (hnest _ (hmem u hu) _ (hmem t ht) ha).symm

/-- The program of a forest is a copy of the tree at a node of another one. Their numbers
    may be different. -/
def Forest.Copies (g f : Forest) (m : NodeId) : Prop :=
  ∃ t u, f.Reads t ∧ t.root = m ∧ g.Carries u ∧ u.erase = t.erase

/-- Propagation treats each method as if it were the whole program. If no method is below
    another one, then what becomes of each is what becomes of a copy of it that is a program
    of its own, all else stays, and a change is told exactly if it is told of a copy. -/
theorem propagation_is_per_method {f f' : Forest} {changed : Bool} (hf : f.Consistent)
    (hnest : ∀ m ∈ f.methods, ∀ n ∈ f.methods, f.Above m n → m = n)
    (h : Edit.propagateProgram f = .ok changed f') {alone : NodeId → Forest}
    (halone : ∀ m ∈ f.methods, (alone m).Copies f m) :
    (∀ m ∈ f.methods, ∃ c g, Edit.propagateProgram (alone m) = .ok c g ∧ g.Copies f' m) ∧
      f.Confined f.methods f' ∧
      (changed = true ↔ ∃ m ∈ f.methods, ∃ g, Edit.propagateProgram (alone m) = .ok true g) := by
  obtain ⟨p, hcarries⟩ := hf.exists_carries
  have hapart := hcarries.apart_methods hnest
  have hrun : Edit.visitAll Edit.propagateAlone f.methods f = .ok changed f' := by
    rwa [Edit.propagateProgram_eq] at h
  rw [hcarries.methods_eq] at hrun
  obtain ⟨hconfined, hresult⟩ := (Edit.ensures_propagateMethods hf hapart).of_eq_ok hrun
  obtain ⟨htrees, hchanged⟩ := hresult changed rfl
  -- What is known of the tree of a method tells how the copy of it ends.
  have hcopy : ∀ t ∈ p.methods, ∀ u c, t.Propagated u c → ∃ g,
      Edit.propagateProgram (alone t.root) = .ok c g ∧ ∃ w, g.Carries w ∧ w.erase = u.erase := by
    intro t ht u c hu
    have hmem : t.root ∈ f.methods := hcarries.methods_eq ▸ List.mem_map_of_mem ht
    obtain ⟨t', v, ht', hroot, hv, hvt⟩ := halone t.root hmem
    obtain rfl := ht'.eq_of_root_eq (hapart.reads t ht) hroot
    have hsingle := ht'.methods_eq_singleton hf hmem (hnest _ hmem)
    exact (Edit.ensures_propagateProgram_copy hv hvt hsingle hu).exists_eq_ok
  refine ⟨fun m hm => ?_, hcarries.methods_eq ▸ hconfined, ?_⟩
  · obtain ⟨t, ht, rfl⟩ := List.mem_map.1 (hcarries.methods_eq ▸ hm)
    obtain ⟨u, c, hu, hread⟩ := htrees t ht
    obtain ⟨g, hg, w, hw, hwu⟩ := hcopy t ht u c hu
    exact ⟨c, g, hg, u, w, hread, hu.root_eq, hw, hwu⟩
  · rw [hchanged, hcarries.methods_eq]
    constructor
    · rintro ⟨t, ht, u, hu⟩
      obtain ⟨g, hg, -⟩ := hcopy t ht u true hu
      exact ⟨t.root, List.mem_map_of_mem ht, g, hg⟩
    · rintro ⟨m, hm, g, hg⟩
      obtain ⟨t, ht, rfl⟩ := List.mem_map.1 hm
      obtain ⟨u, c, hu, -⟩ := htrees t ht
      obtain ⟨g', hg', -⟩ := hcopy t ht u c hu
      cases hg.symm.trans hg'
      exact ⟨t, ht, u, hu⟩

/-- Two methods with a variable of the same name, which is known in the first one only. -/
def sharedName : Forest where
  nodes := #[
    { kind := .program, children := [1] },
    { kind := .classDecl "A" none, parent := some 0, children := [2, 8] },
    { kind := .method "f", parent := some 1, children := [3, 4, 6] },
    { kind := .varDecl "x" "int", parent := some 2 },
    { kind := .assignment "x", parent := some 2, children := [5] },
    { kind := .integer 1, parent := some 4 },
    { kind := .returnStmt, parent := some 2, children := [7] },
    { kind := .identifier "x", parent := some 6 },
    { kind := .method "g", parent := some 1, children := [9, 10, 11, 13] },
    { kind := .param "x" "int", parent := some 8 },
    { kind := .varDecl "y" "int", parent := some 8 },
    { kind := .assignment "y", parent := some 8, children := [12] },
    { kind := .integer 2, parent := some 11 },
    { kind := .returnStmt, parent := some 8, children := [14] },
    { kind := .arithmetic .add, parent := some 13, children := [15, 16] },
    { kind := .identifier "x", parent := some 14 },
    { kind := .identifier "y", parent := some 14 }]
  root := 0

/-- The first method of `sharedName`, with numbers from the given one on. -/
def knownMethod (i : NodeId) : Tree :=
  .node i (.method "f") [
    .node (i + 1) (.varDecl "x" "int") [],
    .node (i + 2) (.assignment "x") [.node (i + 3) (.integer 1) []],
    .node (i + 4) .returnStmt [.node (i + 5) (.identifier "x") []]]

/-- The second method of `sharedName`, with numbers from the given one on. -/
def unknownMethod (i : NodeId) : Tree :=
  .node i (.method "g") [
    .node (i + 1) (.param "x" "int") [],
    .node (i + 2) (.varDecl "y" "int") [],
    .node (i + 3) (.assignment "y") [.node (i + 4) (.integer 2) []],
    .node (i + 5) .returnStmt [
      .node (i + 6) (.arithmetic .add) [
        .node (i + 7) (.identifier "x") [], .node (i + 8) (.identifier "y") []]]]

/-- Each method of `sharedName` as a program of its own. -/
def sharedNameAlone (m : NodeId) : Forest where
  nodes :=
    if m = 2 then #[
      { kind := .method "f", children := [1, 2, 4] },
      { kind := .varDecl "x" "int", parent := some 0 },
      { kind := .assignment "x", parent := some 0, children := [3] },
      { kind := .integer 1, parent := some 2 },
      { kind := .returnStmt, parent := some 0, children := [5] },
      { kind := .identifier "x", parent := some 4 }]
    else #[
      { kind := .method "g", children := [1, 2, 3, 5] },
      { kind := .param "x" "int", parent := some 0 },
      { kind := .varDecl "y" "int", parent := some 0 },
      { kind := .assignment "y", parent := some 0, children := [4] },
      { kind := .integer 2, parent := some 3 },
      { kind := .returnStmt, parent := some 0, children := [6] },
      { kind := .arithmetic .add, parent := some 5, children := [7, 8] },
      { kind := .identifier "x", parent := some 6 },
      { kind := .identifier "y", parent := some 6 }]
  root := 0

theorem copies_sharedNameAlone : ∀ m ∈ sharedName.methods,
    (sharedNameAlone m).Copies sharedName m := by
  have hmethods : sharedName.methods = [2, 8] := by decide +kernel
  have hcarries {m : NodeId} {t : Tree} (hm : m = 2 ∨ m = 8) (ht : (sharedNameAlone m).Reads t)
      (hroot : t.root = 0) : (sharedNameAlone m).Carries t := by
    refine ⟨?_, ht, hroot.symm⟩
    rcases hm with rfl | rfl <;>
      exact Forest.consistent_of_ordered (by decide) (by decide +kernel) (by decide +kernel)
  rw [hmethods, List.forall_mem_cons, List.forall_mem_singleton]
  exact ⟨⟨knownMethod 2, knownMethod 0, by decide +kernel, rfl,
      hcarries (.inl rfl) (by decide +kernel) rfl, rfl⟩,
    ⟨unknownMethod 8, unknownMethod 0, by decide +kernel, rfl,
      hcarries (.inr rfl) (by decide +kernel) rfl, rfl⟩⟩

theorem propagation_is_per_method_sharedName :
    let f := after Edit.propagateProgram sharedName
    Edit.propagateProgram sharedName = .ok true f ∧ sharedName.methods = [2, 8] ∧
      f.children 6 = [17] ∧ f.children 14 = [15, 18] ∧ sharedName.Confined [2, 8] f ∧
      (after Edit.propagateProgram (sharedNameAlone 8)).children 6 = [7, 9] ∧
      (after Edit.propagateProgram (sharedNameAlone 8)).Copies f 8 ∧
      ∃ m ∈ [2, 8], ∃ g, Edit.propagateProgram (sharedNameAlone m) = .ok true g := by
  intro f
  have hf : sharedName.Consistent :=
    Forest.consistent_of_ordered (by decide) (by decide +kernel) (by decide +kernel)
  have hmethods : sharedName.methods = [2, 8] := by decide +kernel
  have hnest : ∀ m ∈ sharedName.methods, ∀ n ∈ sharedName.methods,
      sharedName.isAbove m n → m = n := by
    rw [hmethods]
    decide +kernel
  have hrun : Edit.propagateProgram sharedName = .ok true f := by rfl
  have hlast : Edit.propagateProgram (sharedNameAlone 8) =
      .ok true (after Edit.propagateProgram (sharedNameAlone 8)) := by rfl
  obtain ⟨hcopies, hconfined, hchanged⟩ := propagation_is_per_method hf
    (fun m hm n hn ha => hnest m hm n hn (hf.isAbove_iff_above.2 ha)) hrun copies_sharedNameAlone
  rw [hmethods] at hcopies hconfined hchanged
  obtain ⟨c, g, hg, hcopy⟩ := hcopies 8 (by decide)
  cases hlast.symm.trans hg
  exact ⟨hrun, hmethods, by decide +kernel, by decide +kernel, hconfined, by decide +kernel, hcopy,
    hchanged.1 rfl⟩

end Midend
