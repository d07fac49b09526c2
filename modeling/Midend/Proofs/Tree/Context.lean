import Midend.Proofs.Tree.Edit
import Midend.Proofs.Tree.Lineage

/-!
# Places in a tree

A *context* is a tree with a place for several trees next to each other. A tree that
a forest shows is mostly looked at from such a place: a pass that works on some
statements or operands leaves the context as it is, and the edits that the passes
are made of put other trees into it. The tree may be the program of the forest, a
part of it, or be beside it.

* `Shows.supplant`: trees that supplant another one in the forest stand in its
  place in the tree.
* `ensures_replaceByLeaf`, `ensures_replaceByChild`, `ensures_dissolve`,
  `ensures_cut`: what a leaf, a child, the children of a child, or nothing in the
  place of a tree makes of the whole.
-/

namespace Midend

open Midend.Tree (ids subtrees)

/-! ## Contexts -/

/-- A node, and its children but for some that stand next to each other. -/
structure Level where
  /-- The number of the node. -/
  root : NodeId
  /-- The kind of the node. -/
  kind : Kind
  /-- The children before the place. -/
  left : List Tree
  /-- The children after the place. -/
  right : List Tree

namespace Level

/-- The tree with the given trees in the place. -/
def fill (l : Level) (ts : List Tree) : Tree := .node l.root l.kind (l.left ++ ts ++ l.right)

/-- The numbers of the nodes around the place. -/
def ids (l : Level) : List NodeId := l.root :: (l.left ++ l.right).flatMap Tree.ids

theorem ids_fill (l : Level) (ts : List Tree) :
    (l.fill ts).ids.Perm (l.ids ++ ts.flatMap Tree.ids) := by
  simp only [fill, Tree.ids_node, ids, List.flatMap_append, List.cons_append, List.append_assoc]
  exact (List.Perm.append_left _ List.perm_append_comm).cons _

end Level

/-- A place in a tree: the level of the place and the levels above it. -/
structure Context where
  /-- The level of the place. -/
  level : Level
  /-- The levels above it, the nearest first. -/
  outer : List Level

namespace Context

/-- The tree within levels. -/
def enclose : List Level → Tree → Tree
  | [], t => t
  | l :: ls, t => enclose ls (l.fill [t])

@[simp] theorem enclose_nil (t : Tree) : enclose [] t = t := rfl

theorem enclose_append (ls ms : List Level) (t : Tree) :
    enclose (ls ++ ms) t = enclose ms (enclose ls t) := by
  induction ls generalizing t with
  | nil => rfl
  | cons l ls ih => exact ih (l.fill [t])

/-- A tree is around each of its subtrees. -/
theorem exists_enclose {t u : Tree} (hu : u ∈ t.subtrees) : ∃ ls, t = enclose ls u := by
  induction t with
  | node i k cs ih =>
    rw [Tree.subtrees_node, List.mem_cons, List.mem_flatMap] at hu
    rcases hu with rfl | ⟨c, hc, hu⟩
    · exact ⟨[], rfl⟩
    · obtain ⟨ls, hls⟩ := ih c hc hu
      obtain ⟨left, right, rfl⟩ := List.append_of_mem hc
      refine ⟨ls ++ [{ root := i, kind := k, left := left, right := right }], ?_⟩
      rw [enclose_append, ← hls]
      simp [enclose, Level.fill]

/-- The tree with the given trees in the place. -/
def plug (C : Context) (ts : List Tree) : Tree := enclose C.outer (C.level.fill ts)

/-- The place after some trees. -/
def afterTrees (C : Context) (us : List Tree) : Context :=
  { C with level := { C.level with left := C.level.left ++ us } }

/-- The place before some trees. -/
def beforeTrees (C : Context) (us : List Tree) : Context :=
  { C with level := { C.level with right := us ++ C.level.right } }

/-- The place of all children of a node within levels. -/
def allChildren (i : NodeId) (k : Kind) (outer : List Level) : Context where
  level := { root := i, kind := k, left := [], right := [] }
  outer := outer

/-- The place of all children of a node that is in the place. -/
def down (C : Context) (i : NodeId) (k : Kind) : Context := allChildren i k (C.level :: C.outer)

@[simp] theorem plug_allChildren (i : NodeId) (k : Kind) (outer : List Level) (cs : List Tree) :
    (allChildren i k outer).plug cs = enclose outer (.node i k cs) := by
  simp [allChildren, plug, Level.fill]

@[simp] theorem plug_afterTrees (C : Context) (us ts : List Tree) :
    (C.afterTrees us).plug ts = C.plug (us ++ ts) := by
  simp [afterTrees, plug, Level.fill]

@[simp] theorem plug_beforeTrees (C : Context) (us ts : List Tree) :
    (C.beforeTrees us).plug ts = C.plug (ts ++ us) := by
  simp [beforeTrees, plug, Level.fill]

@[simp] theorem plug_down (C : Context) (i : NodeId) (k : Kind) (cs : List Tree) :
    (C.down i k).plug cs = C.plug [.node i k cs] := by
  rw [down, plug_allChildren]
  rfl

/-- Whether the place is in a list of statements. -/
def amongStatements (C : Context) : Bool := C.level.kind.holdsStatements

/-- The numbers of the nodes around the place. -/
def ids (C : Context) : List NodeId := C.level.ids ++ C.outer.flatMap Level.ids

theorem ids_enclose (ls : List Level) (t : Tree) :
    (enclose ls t).ids.Perm (ls.flatMap Level.ids ++ t.ids) := by
  induction ls generalizing t with
  | nil => exact .refl _
  | cons l ls ih =>
    rw [enclose, List.flatMap_cons, List.append_assoc]
    refine (ih (l.fill [t])).trans ?_
    refine ((l.ids_fill [t]).append_left _).trans ?_
    simp only [List.flatMap_singleton]
    rw [← List.append_assoc, ← List.append_assoc]
    exact List.perm_append_comm.append_right _

theorem ids_plug (C : Context) (ts : List Tree) :
    (C.plug ts).ids.Perm (C.ids ++ ts.flatMap Tree.ids) := by
  refine (ids_enclose C.outer _).trans (((C.level.ids_fill ts).append_left _).trans ?_)
  rw [← List.append_assoc]
  exact List.perm_append_comm.append_right _

theorem root_enclose (ls : List Level) {t u : Tree} (h : t.root = u.root) :
    (enclose ls t).root = (enclose ls u).root := by
  induction ls generalizing t u with
  | nil => exact h
  | cons l ls ih => exact ih rfl

/-- The root is the same whatever is in the place. -/
theorem root_plug (C : Context) (ts us : List Tree) : (C.plug ts).root = (C.plug us).root :=
  root_enclose C.outer rfl

theorem root_enclose_mem (ls : List Level) (t : Tree) :
    (enclose ls t).root = t.root ∨ (enclose ls t).root ∈ ls.flatMap Level.ids := by
  induction ls generalizing t with
  | nil => exact .inl rfl
  | cons l ls ih =>
    rw [List.flatMap_cons, List.mem_append]
    rcases ih (l.fill [t]) with h | h
    · exact .inr (.inl (h ▸ List.mem_cons_self))
    · exact .inr (.inr h)

/-- The root is not in the place. -/
theorem root_plug_mem (C : Context) (ts : List Tree) : (C.plug ts).root ∈ C.ids := by
  rcases root_enclose_mem C.outer (C.level.fill ts) with h | h
  · rw [plug, h]
    exact List.mem_append_left _ List.mem_cons_self
  · exact List.mem_append_right _ h

end Context

/-! ## Reading in a context -/

namespace Forest

open Context

variable {f f' : Forest} {C : Context} {t : Tree} {ts us : List Tree}

theorem Reads.of_enclose {ls : List Level} (h : f.Reads (enclose ls t)) : f.Reads t := by
  induction ls generalizing t with
  | nil => exact h
  | cons l ls ih => exact (ih h).of_mem_children (by simp [Level.fill])

theorem Reads.of_mem_plug (h : f.Reads (C.plug ts)) (ht : t ∈ ts) : f.Reads t :=
  h.of_enclose.of_mem_children (by simp [Level.fill, ht])

/-- Other trees read in the place of a level whose other children are as they
    were. -/
theorem Reads.fill_congr {l : Level} (h : f.Reads (l.fill ts))
    (hf : ∀ i ∈ (l.left ++ l.right).flatMap Tree.ids,
      f'.kind? i = f.kind? i ∧ f'.children i = f.children i)
    (hkind : f'.kind? l.root = f.kind? l.root)
    (hchildren : f'.children l.root = (l.left ++ us ++ l.right).map Tree.root)
    (hus : ∀ u ∈ us, f'.Reads u) : f'.Reads (l.fill us) := by
  refine .node (hkind.trans h.kind?_eq) hchildren fun c hc => ?_
  by_cases hcu : c ∈ us
  · exact hus c hcu
  · have hlr : c ∈ l.left ++ l.right := by
      simp only [List.mem_append] at hc ⊢
      tauto
    have hread : f.Reads c := h.of_mem_children (by
      simp only [Level.fill, Tree.children_node, List.mem_append] at hlr ⊢
      tauto)
    exact hread.congr fun i hi => hf i (List.mem_flatMap.2 ⟨c, hlr, hi⟩)

/-- Another tree of the same root reads within levels that are as they were. -/
theorem Reads.enclose_congr {ls : List Level} {u : Tree} (h : f.Reads (enclose ls t))
    (hf : ∀ i ∈ ls.flatMap Level.ids, f'.kind? i = f.kind? i ∧ f'.children i = f.children i)
    (hu : f'.Reads u) (hroot : u.root = t.root) : f'.Reads (enclose ls u) := by
  induction ls generalizing t u with
  | nil => exact hu
  | cons l ls ih =>
    rw [List.flatMap_cons] at hf
    have hl : f.Reads (l.fill [t]) := (show f.Reads (enclose ls (l.fill [t])) from h).of_enclose
    have hsame : ∀ i ∈ l.ids, f'.kind? i = f.kind? i ∧ f'.children i = f.children i :=
      fun i hi => hf i (List.mem_append_left _ hi)
    obtain ⟨hk, hc⟩ := hsame l.root List.mem_cons_self
    refine ih h (fun i hi => hf i (List.mem_append_right _ hi)) ?_ rfl
    refine hl.fill_congr (fun i hi => hsame i (List.mem_cons_of_mem _ hi)) hk ?_ ?_
    · rw [hc, show f.children l.root = _ from hl.children_eq]
      simp [Level.fill, hroot]
    · simpa using hu

/-- The forest, which is consistent, reads as the tree at the root of the tree. The
    program may begin there, or elsewhere, but not inside of the tree. -/
structure Shows (f : Forest) (t : Tree) : Prop where
  consistent : f.Consistent
  reads : f.Reads t
  root_eq_of_mem : f.root ∈ t.ids → f.root = t.root

/-- The program of the forest, which is consistent, reads as the tree. -/
structure Carries (f : Forest) (t : Tree) : Prop where
  consistent : f.Consistent
  reads : f.Reads t
  root_eq : f.root = t.root

theorem Consistent.exists_carries (hf : f.Consistent) : ∃ t, f.Carries t := by
  obtain ⟨t, ht, hroot⟩ := hf.exists_reads hf.contains_root
  exact ⟨t, hf, ht, hroot.symm⟩

theorem Carries.shows (h : f.Carries t) : f.Shows t :=
  ⟨h.consistent, h.reads, fun _ => h.root_eq⟩

/-- A part of the program is shown as well. -/
theorem Carries.shows_of_enclose {ls : List Level} (h : f.Carries (enclose ls t)) : f.Shows t := by
  refine ⟨h.consistent, h.reads.of_enclose, fun hmem => ?_⟩
  have hnd := (ids_enclose ls t).nodup_iff.1 (h.consistent.nodup_ids h.reads)
  rw [h.root_eq] at hmem ⊢
  exact (root_enclose_mem ls t).resolve_right fun hls => (List.nodup_append'.1 hnd).2.2 hls hmem

namespace Shows

theorem parent?_eq (h : f.Shows (C.plug ts)) (ht : t ∈ ts) :
    f.parent? t.root = some C.level.root :=
  h.consistent.parent?_of_mem_children h.reads.of_enclose (by simp [Level.fill, ht])

theorem kind?_level (h : f.Shows (C.plug ts)) : f.kind? C.level.root = some C.level.kind :=
  h.reads.of_enclose.kind?_eq

theorem nodup_ids (h : f.Shows (C.plug ts)) : (C.ids ++ ts.flatMap Tree.ids).Nodup :=
  (C.ids_plug ts).nodup_iff.1 (h.consistent.nodup_ids h.reads)

theorem notMem_ids_of_mem_context (h : f.Shows (C.plug [t])) {i : NodeId} (hi : i ∈ C.ids) :
    i ∉ t.ids := by
  have hnd := h.nodup_ids
  rw [List.flatMap_singleton] at hnd
  exact fun ht => (List.nodup_append'.1 hnd).2.2 hi ht

/-- The program does not begin in the place. -/
theorem root_notMem (h : f.Shows (C.plug [t])) : f.root ∉ t.ids := by
  intro hroot
  have hmem : f.root ∈ (C.plug [t]).ids :=
    (C.ids_plug [t]).mem_iff.2 (List.mem_append_right _ (by simpa using hroot))
  rw [h.root_eq_of_mem hmem] at hroot
  exact h.notMem_ids_of_mem_context (C.root_plug_mem [t]) hroot

/-- What is in the place is below the root of the tree. -/
theorem above_of_mem (h : f.Shows (C.plug [t])) :
    f.Above (C.plug [t]).root t.root ∧ t.root ≠ (C.plug [t]).root := by
  have hmem : t.root ∈ (C.plug [t]).ids :=
    (C.ids_plug [t]).mem_iff.2 (List.mem_append_right _ (by simpa using t.root_mem_ids))
  refine ⟨h.consistent.above_of_mem_ids h.reads hmem, fun heq => ?_⟩
  exact h.notMem_ids_of_mem_context (C.root_plug_mem [t]) (heq ▸ t.root_mem_ids)

/-- The node of the place occurs nowhere else in the context. -/
theorem level_root_notMem (h : f.Shows (C.plug ts)) :
    C.level.root ∉ (C.level.left ++ C.level.right).flatMap Tree.ids ∧
      C.level.root ∉ C.outer.flatMap Level.ids := by
  have hnd := (List.nodup_append'.1 h.nodup_ids).1
  rw [Context.ids, Level.ids, List.cons_append, List.nodup_cons, List.mem_append, not_or] at hnd
  exact hnd.1

section Supplant

/- Trees that come from below the one in the place, or that were detached, supplant it. -/
variable (h : f.Shows (C.plug [t]))
  (hs : Supplanted f f' C.level.root t.root (us.map Tree.root))
  (hparent : ∀ u ∈ us, ∀ p, f.parent? u.root = some p → p ∈ t.ids ∧ p ∉ us.flatMap Tree.ids)

include h hparent in
/-- A node that stays, or comes into the place, has none of the new trees for a
    child. -/
theorem notMem_of_mem_children {i : NodeId} (hi : i ∉ t.ids ∨ i ∈ us.flatMap Tree.ids) :
    ∀ c ∈ f.children i, c ∉ us.map Tree.root := by
  intro c hc hmem
  obtain ⟨u, hu, rfl⟩ := List.mem_map.1 hmem
  obtain ⟨hin, hnot⟩ := hparent u hu i (h.consistent.parent?_iff.2 hc)
  exact hi.elim (fun hi => hi hin) fun hi => hnot hi

include h hs hparent

theorem eq_of_supplanted {i : NodeId} (hne : i ≠ C.level.root)
    (hi : i ∉ t.ids ∨ i ∈ us.flatMap Tree.ids) :
    f'.kind? i = f.kind? i ∧ f'.children i = f.children i := by
  refine ⟨hs.kind?_eq i, (hs.children_of_ne hne).trans (List.filter_eq_self.2 fun c hc => ?_)⟩
  exact decide_eq_true (h.notMem_of_mem_children hparent hi c hc)

theorem children_level_of_supplanted :
    f'.children C.level.root = (C.level.left ++ us ++ C.level.right).map Tree.root := by
  have hroot : C.level.root ∈ C.ids := List.mem_append_left _ List.mem_cons_self
  have hsplit : f.children C.level.root =
      C.level.left.map Tree.root ++ t.root :: C.level.right.map Tree.root := by
    simpa [Level.fill] using h.reads.of_enclose.children_eq
  have hkeep := h.notMem_of_mem_children hparent (.inl (h.notMem_ids_of_mem_context hroot))
  rw [hsplit, List.forall_mem_append, List.forall_mem_cons] at hkeep
  rw [hs.children_at hsplit, List.filter_eq_self.2 fun c hc => decide_eq_true (hkeep.1 c hc),
    List.filter_eq_self.2 fun c hc => decide_eq_true (hkeep.2.2 c hc), List.map_append,
    List.map_append]

/-- Trees that supplant another one stand in its place. -/
theorem supplant (hus : ∀ u ∈ us, f.Reads u) (hnodup : (us.map Tree.root).Nodup)
    (habove : ∀ u ∈ us, ¬ f.Above u.root t.root) (hroot : f.root ∉ us.flatMap Tree.ids) :
    f'.Shows (C.plug us) := by
  have hp : f.parent? t.root = some C.level.root := h.parent?_eq (List.mem_singleton.2 rfl)
  have hnew : ∀ u ∈ us, f'.Reads u := by
    intro u hu
    refine (hus u hu).congr fun i hi => h.eq_of_supplanted hs hparent ?_
      (.inr (List.mem_flatMap.2 ⟨u, hu, hi⟩))
    rintro rfl
    exact habove u hu ((h.consistent.above_of_mem_ids (hus u hu) hi).of_parent hp)
  obtain ⟨hbeside, houter⟩ := h.level_root_notMem
  refine ⟨h.consistent.supplant hs hp hnodup (by simpa using habove), ?_, ?_⟩
  -- Beside and above the place, all nodes have their kinds and their children still.
  · refine Reads.enclose_congr h.reads (fun i hi => ?_) (h.reads.of_enclose.fill_congr
      (fun i hi => ?_) (hs.kind?_eq _) (h.children_level_of_supplanted hs hparent) hnew) rfl
    · refine h.eq_of_supplanted hs hparent (fun heq => houter (heq ▸ hi)) (.inl ?_)
      exact h.notMem_ids_of_mem_context (List.mem_append_right _ hi)
    · refine h.eq_of_supplanted hs hparent (fun heq => hbeside (heq ▸ hi)) (.inl ?_)
      exact h.notMem_ids_of_mem_context (List.mem_append_left _ (List.mem_cons_of_mem _ hi))
  · rw [hs.root_eq, (C.ids_plug us).mem_iff, List.mem_append, C.root_plug us [t]]
    intro hmem
    refine h.root_eq_of_mem ((C.ids_plug [t]).mem_iff.2 (List.mem_append_left _ ?_))
    exact hmem.resolve_right hroot

end Supplant

theorem grow (h : f.Shows t) (k : Kind) : (f.grow k).Shows t where
  consistent := h.consistent.grow k
  reads := h.reads.congr fun i hi => by
    have hlt := contains_iff.1 (h.reads.contains_of_mem_ids hi)
    simp [Nat.ne_of_lt hlt]
  root_eq_of_mem := h.root_eq_of_mem

end Shows

/-- A new leaf reads as such, and is above no other node. -/
theorem reads_grow (f : Forest) (k : Kind) : (f.grow k).Reads (.node f.size k []) := by
  have hc : f.children f.size = [] := f.children_eq_nil _ (by simp [contains_iff])
  exact .node (by simp) (by simp [hc]) (by simp)

theorem not_above_grow (hf : f.Consistent) (k : Kind) {i : NodeId} (hi : f.contains i) :
    ¬ (f.grow k).Above f.size i := by
  intro h
  rcases h.cases_tail with heq | ⟨c, -, hc⟩
  · exact Nat.ne_of_lt (contains_iff.1 hi) heq.symm
  · rw [parent?_grow, hf.parent?_iff, f.children_eq_nil _ (by simp [contains_iff])] at hc
    exact absurd hc List.not_mem_nil

end Forest

/-! ## Edits in a context -/

namespace Edit

open Forest

variable {f : Forest} {C : Context} {t : Tree}

theorem ensures_replaceByLeaf (h : f.Shows (C.plug [t])) (k : Kind) :
    Ensures (do replace t.root (← leaf k)) f fun r f' =>
      r = .ok () ∧ f'.Shows (C.plug [.node f.size k []]) := by
  have hg := h.grow k
  have ht : f.contains t.root :=
    (h.reads.of_mem_plug (List.mem_singleton.2 rfl)).contains_of_mem_ids t.root_mem_ids
  have habove := not_above_grow h.consistent k ht
  have hparent : f.parent? f.size = none := by simp [parent?, size]
  have hroot : (f.grow k).root ≠ f.size := Nat.ne_of_lt (contains_iff.1 h.consistent.contains_root)
  rw [ensures_bind, ensures_leaf]
  refine (ensures_replace hg.consistent (hg.parent?_eq (List.mem_singleton.2 rfl))
    (by simp [contains_iff]) habove).mono ?_
  rintro _ f' ⟨rfl, hs⟩
  refine ⟨rfl, hg.supplant hs ?_ ?_ ?_ ?_ ?_⟩
  · simp [hparent]
  · simpa using f.reads_grow k
  · simp
  · simpa using habove
  · simpa using hroot

/-- Nothing takes the place of a tree. -/
theorem ensures_cut (h : f.Shows (C.plug [t])) :
    Ensures (delete t.root) f fun r f' => r = .ok () ∧ f'.Shows (C.plug []) := by
  have hroot : t.root ≠ f.root := fun heq => h.root_notMem (heq ▸ t.root_mem_ids)
  refine (ensures_delete h.consistent (h.parent?_eq (List.mem_singleton.2 rfl)) hroot).mono ?_
  rintro _ f' ⟨rfl, hs⟩
  exact ⟨rfl, h.supplant hs (by simp) (by simp) (by simp) (by simp) (by simp)⟩

section Child

variable {i : NodeId} {k : Kind} {cs : List Tree} {b : Tree} (hb : b ∈ cs)
  (h : f.Shows (C.plug [.node i k cs]))
include hb h

theorem root_notMem_child : f.root ∉ b.ids := fun hroot =>
  h.root_notMem (by
    rw [Tree.ids_node]
    exact List.mem_cons_of_mem i (List.mem_flatMap.2 ⟨b, hb, hroot⟩))

/-- A child takes the place of its parent. -/
theorem ensures_replaceByChild :
    Ensures (replace i b.root) f fun r f' => r = .ok () ∧ f'.Shows (C.plug [b]) := by
  have ht : f.Reads (.node i k cs) := h.reads.of_mem_plug (List.mem_singleton.2 rfl)
  have hbr : f.Reads b := ht.of_mem_children hb
  have hparent : f.parent? b.root = some i := h.consistent.parent?_of_mem_children ht hb
  have habove : ¬ f.Above b.root i := h.consistent.not_above_parent hparent
  refine (ensures_replace h.consistent (h.parent?_eq (List.mem_singleton.2 rfl))
    (hbr.contains_of_mem_ids b.root_mem_ids) habove).mono ?_
  rintro _ f' ⟨rfl, hs⟩
  refine ⟨rfl, h.supplant hs ?_ (by simpa using hbr) (by simp) (by simpa using habove)
    (by simpa using root_notMem_child hb h)⟩
  intro u hu p hp
  obtain rfl := List.mem_singleton.1 hu
  obtain rfl : i = p := Option.some.inj (hparent.symm.trans hp)
  have hnodup := h.consistent.nodup_ids ht
  rw [Tree.ids_node, List.nodup_cons] at hnodup
  refine ⟨Tree.root_mem_ids _, fun hi => hnodup.1 ?_⟩
  exact List.mem_flatMap.2 ⟨u, hb, by simpa using hi⟩

/-- The children of a child take the place of its parent. -/
theorem ensures_dissolve :
    Ensures (splice i (f.children b.root)) f fun r f' =>
      r = .ok () ∧ f'.Shows (C.plug b.children) := by
  have ht : f.Reads (.node i k cs) := h.reads.of_mem_plug (List.mem_singleton.2 rfl)
  have hbr : f.Reads b := ht.of_mem_children hb
  have hparent : f.parent? b.root = some i := h.consistent.parent?_of_mem_children ht hb
  have habove : ∀ c ∈ b.children, ¬ f.Above c.root i := fun c hc ha =>
    h.consistent.not_above_parent (h.consistent.parent?_of_mem_children hbr hc)
      (ha.of_parent hparent)
  have hcontains : ∀ c ∈ b.children, f.contains c.root := fun c hc =>
    (hbr.of_mem_children hc).contains_of_mem_ids c.root_mem_ids
  rw [hbr.children_eq]
  refine (ensures_splice h.consistent (h.parent?_eq (List.mem_singleton.2 rfl)) ?_).mono ?_
  · intro n hn
    obtain ⟨c, hc, rfl⟩ := List.mem_map.1 hn
    exact ⟨hcontains c hc, habove c hc⟩
  rintro _ f' ⟨rfl, hs⟩
  refine ⟨rfl, h.supplant hs ?_ (fun c => hbr.of_mem_children) ?_ habove fun hroot => ?_⟩
  · intro c hc p hp
    obtain rfl : b.root = p :=
      Option.some.inj ((h.consistent.parent?_of_mem_children hbr hc).symm.trans hp)
    have hnodup := h.consistent.nodup_ids hbr
    obtain ⟨j, kb, ds⟩ := b
    rw [Tree.ids_node, List.nodup_cons] at hnodup
    refine ⟨?_, hnodup.1⟩
    rw [Tree.ids_node, List.mem_cons, List.mem_flatMap]
    exact .inr ⟨_, hb, Tree.root_mem_ids _⟩
  · rw [← hbr.children_eq]
    exact h.consistent.nodup_children _
  · refine root_notMem_child hb h ?_
    cases b
    exact Tree.ids_node .. ▸ List.mem_cons_of_mem _ hroot

end Child

/-! ## Visits -/

/-- What visits do to trees one after the other, as a relation between the trees,
    what is in their place afterwards, and the result. -/
structure Sequential (rel : List Tree → List Tree → Except Error Bool → Prop) : Prop where
  nil : rel [] [] (.ok false)
  cons : ∀ {t ts us vs b r}, rel [t] us (.ok b) → rel ts vs r →
    rel (t :: ts) (us ++ vs) (r.map (b || ·))
  stop : ∀ {t ts us e}, rel [t] us (.error e) → rel (t :: ts) (us ++ ts) (.error e)

/-- Where the forest holds the tree in this way, next to others, a visit of it is as a
    relation says. -/
def VisitsIn {α : Type} (holds : Forest → List Tree → Prop) (visit : NodeId → Edit α)
    (rel : List Tree → List Tree → Except Error α → Prop) (t : Tree) : Prop :=
  ∀ ⦃f : Forest⦄ ⦃l r : List Tree⦄, holds f (l ++ t :: r) →
    Ensures (visit t.root) f fun x f' => ∃ us, rel [t] us x ∧ holds f' (l ++ us ++ r)

/-- Visits of several trees are as the relation says if each one is. -/
theorem ensures_visitAllIn {holds : Forest → List Tree → Prop} {visit : NodeId → Edit Bool}
    {rel : List Tree → List Tree → Except Error Bool → Prop} (hrel : Sequential rel)
    {ts : List Tree} (hvisit : ∀ t ∈ ts, VisitsIn holds visit rel t) {l r : List Tree}
    (h : holds f (l ++ ts ++ r)) :
    Ensures (visitAll visit (ts.map Tree.root)) f fun x f' =>
      ∃ us, rel ts us x ∧ holds f' (l ++ us ++ r) := by
  induction ts generalizing f l with
  | nil => exact ⟨[], hrel.nil, h⟩
  | cons t ts ih =>
    have ht : holds f (l ++ t :: (ts ++ r)) := by simpa using h
    rw [List.map_cons, visitAll]
    refine (hvisit t List.mem_cons_self ht).bind ?_ ?_
    · rintro b f₁ ⟨us, hus, h₁⟩
      have hts : holds f₁ (l ++ us ++ ts ++ r) := by simpa using h₁
      refine (ih (fun t ht => hvisit t (List.mem_cons_of_mem _ ht)) hts).bind ?_ ?_
      · rintro c f₂ ⟨vs, hvs, h₂⟩
        exact ⟨us ++ vs, hrel.cons hus hvs, by simpa using h₂⟩
      · rintro e f₂ ⟨vs, hvs, h₂⟩
        exact ⟨us ++ vs, hrel.cons hus hvs, by simpa using h₂⟩
    · rintro e f₁ ⟨us, hus, h₁⟩
      exact ⟨us ++ ts, hrel.stop hus, by simpa using h₁⟩

theorem visitAll_singleton (visit : NodeId → Edit Bool) (i : NodeId) :
    visitAll visit [i] = visit i := by
  simp [visitAll]

/-- What each visit keeps holds after all of them, also if one of them stops. -/
theorem ensures_visitAll_of_forall {visit : NodeId → Edit Bool} {I : Forest → Prop}
    {is : List NodeId} (hvisit : ∀ i ∈ is, ∀ f, I f → Ensures (visit i) f fun _ f' => I f')
    (hf : I f) : Ensures (visitAll visit is) f fun _ f' => I f' := by
  induction is generalizing f with
  | nil => exact hf
  | cons i is ih =>
    refine (hvisit i List.mem_cons_self f hf).bind (fun _ f₁ h₁ => ?_) fun _ _ h₁ => h₁
    refine (ih (fun j hj => hvisit j (List.mem_cons_of_mem _ hj)) h₁).bind ?_ fun _ _ h₂ => h₂
    exact fun _ _ h₂ => h₂

end Edit

end Midend
