import Midend.Constant.Rounds
import Midend.Proofs.Constant.Folding
import Midend.Proofs.Constant.Propagation
import Midend.Proofs.Tree.Preorder

/-!
# Progress

What folding and propagation make of trees is lighter if they tell of a change, and the
same if they tell of none. If they stop at an error, that is a fault of the program: no
walk is too long and no node is missing (`Folds.tells`, `Propagates.tells`).

A pass reduces the program, so that this says what it does to the whole forest
(`Edit.Advance`). In propagation a method may be taken out of the program before its
turn comes. It is treated all the same, but then the program is lighter already. So a
pass tells exactly whether it changed the program (`passes_tell_changes`).
-/

namespace Midend

/-- The error tells what is wrong with the program: it divides by zero, it lacks a
    node, or a test is an integer. -/
def Error.IsFault : Error → Prop
  | divisionByZero _ _ => True
  | malformed (.missingChild _ _ _) => True
  | malformed (.integerCondition _ _ _) => True
  | _ => False

theorem Kind.isFault_of_folded {k : Kind} {m : String} {x y : Option Literal} {e : Error}
    (h : k.folded m x y = .error e) : e.IsFault := by
  unfold folded at h
  split at h
  case h_3 =>
    split at h <;> cases h
    trivial
  all_goals cases h

/-! ## What results tell -/

namespace Tree

/-- The result tells of a change, after which the trees are lighter, of none, or of a fault
    of the program. -/
def Tells (ts us : List Tree) : Except Error Bool → Prop
  | .ok true => weightOf us < weightOf ts
  | .ok false => us = ts
  | .error e => e.IsFault

namespace Tells

variable {ts us vs ts' us' : List Tree} {b : Bool} {r : Except Error Bool}

theorem weightOf_le (h : Tells ts us (.ok b)) : weightOf us ≤ weightOf ts := by
  cases b with
  | true => exact Nat.le_of_lt h
  | false => exact (congrArg weightOf h).le

/-- A change here or there is a change of both. -/
theorem append (h : Tells ts us (.ok b)) (h' : Tells ts' us' r) :
    Tells (ts ++ ts') (us ++ us') (r.map (b || ·)) := by
  rcases r with e | c
  · exact h'
  have hle := h.weightOf_le
  have hle' := h'.weightOf_le
  cases b with
  | true =>
    have hlt : weightOf us < weightOf ts := h
    change weightOf (us ++ us') < weightOf (ts ++ ts')
    rw [weightOf_append, weightOf_append]
    omega
  | false =>
    obtain rfl : us = ts := h
    cases c with
    | true => simpa [Tells, Except.map] using h'
    | false => exact congrArg (us ++ ·) h'

theorem append_same (h : Tells ts us r) (vs : List Tree) : Tells (ts ++ vs) (us ++ vs) r := by
  rcases r with e | _ | _
  · exact h
  · exact congrArg (· ++ vs) h
  · simpa [Tells] using h

theorem node {i : NodeId} {k : Kind} (h : Tells ts us r) :
    Tells [.node i k ts] [.node i k us] r := by
  rcases r with e | _ | _
  · exact h
  · exact congrArg (fun cs => [Tree.node i k cs]) h
  · simpa [Tells] using h

theorem enclose {t u : Tree} (ls : List Level) (h : Tells [t] [u] r) :
    Tells [Context.enclose ls t] [Context.enclose ls u] r := by
  rcases r with e | _ | _
  · exact h
  · obtain rfl : u = t := List.singleton_inj.1 h
    rfl
  · have hlt : u.weight < t.weight := by simpa [Tells] using h
    simpa [Tells] using Context.weight_enclose_lt ls hlt

/-- A change at first or then is a change in all. -/
theorem trans (h : Tells ts us (.ok b)) (h' : Tells us vs r) : Tells ts vs (r.map (b || ·)) := by
  rcases r with e | c
  · exact h'
  have hle := h'.weightOf_le
  cases b with
  | true => exact Nat.lt_of_le_of_lt hle h
  | false =>
    obtain rfl : us = ts := h
    cases c <;> exact h'

end Tells

theorem tells_leaf {t : Tree} (ht : 1 < t.weight) {k : Kind} (hk : k.IsResidue) (j : NodeId) :
    Tells [t] [.node j k []] (.ok true) := by
  simpa [Tells, hk.weight_eq] using ht

theorem tells_vacant {t : Tree} (ht : 1 < t.weight) (a : Bool) (j : NodeId) :
    Tells [t] (vacant a j) (.ok true) := by
  simpa [Tells] using Nat.lt_of_le_of_lt (Edit.weightOf_vacant_le a j) ht

/-- A tree gives way to what is left of one of its children. -/
theorem tells_branch {t s v : Tree} {b : Bool} (hs : s ∈ t.children) (h : Tells [s] [v] (.ok b))
    (a : Bool) : Tells [t] (v.asBranch a) (.ok true) := by
  have hle : v.weight ≤ s.weight := by simpa using h.weightOf_le
  have hlt : s.weight < t.weight := weight_lt_of_mem_children hs
  have hbranch := Edit.weightOf_asBranch_le v a
  change weightOf (v.asBranch a) < weightOf [t]
  simp only [weightOf_cons, weightOf_nil]
  omega

end Tree

theorem Folds.tells {m : String} {a : Bool} {ts us : List Tree} {r : Except Error Bool}
    (h : Folds m a ts us r) : Tree.Tells ts us r := by
  induction h with
  | nil => rfl
  | cons _ _ _ iht ihts => exact iht.append ihts
  | stop _ _ ih | inside _ _ ih | test _ _ ih | settledInside _ _ _ _ _ ih => exact ih
  | keep _ _ _ ih => exact ih.node
  | compute j _ hcs hv =>
    refine Tree.tells_leaf (Tree.one_lt_weight ?_) (.inr ⟨_, rfl⟩) j
    rintro rfl
    exact Kind.ne_nil_of_folded hv hcs.eq_nil.1
  | divide _ _ hv => exact Kind.isFault_of_folded hv
  | noTest | integerTest | noBody => trivial
  | settledVacant j | skip j =>
    exact Tree.tells_vacant (Tree.one_lt_weight (List.cons_ne_nil _ _)) _ j
  | settled _ _ _ _ _ ihs => exact Tree.tells_branch (by simp) ihs _
  | unsettled _ _ _ iht ihcs => exact (iht.append ihcs).node
  | loop _ _ _ iht ihs => exact (iht.append (ihs.append_same _)).node

theorem Substitutes.tells {K : Known} {ts us : List Tree} {b : Bool} (h : Substitutes K ts us b) :
    Tree.Tells ts us (.ok b) := by
  induction h with
  | nil => rfl
  | @known i x l cs _ _ _ j _ _ ih =>
    have hleaf := Tree.tells_leaf (Tree.one_lt_weight_identifier i x cs) (.inr ⟨l, rfl⟩) j
    exact hleaf.append ih
  | @unknown i x cs ts us b _ _ ih =>
    have hsame : Tree.Tells [.node i (.identifier x) cs] [.node i (.identifier x) cs] (.ok false) :=
      rfl
    simpa [Except.map] using hsame.append ih
  | node _ _ _ ihcs ihts => exact ihcs.node.append ihts

theorem Propagates.tells {L : NameSet} {a : Bool} {K : Known} {ts us : List Tree}
    {r : Except Error (Known × Bool)} (h : Propagates L a K ts us r) :
    Tree.Tells ts us (r.map Prod.snd) := by
  induction h with
  | nil | declaration => rfl
  | @cons _ _ _ _ _ _ _ _ r _ _ _ iht ihts => cases r <;> exact iht.append ihts
  | stop _ _ ih => exact ih
  | block _ ih => exact ih.node
  | plain _ h => exact h.tells.node
  | noValue | noTest | integerTest | noBranch | noBody => trivial
  | assignment h => exact (h.tells.append_same _).node
  | settledVacant j | skip j =>
    exact Tree.tells_vacant (Tree.one_lt_weight (List.cons_ne_nil _ _)) _ j
  | settledInside _ _ _ _ ih | firstInside _ _ _ _ ih => exact ih
  | settled _ _ _ _ ihs => exact Tree.tells_branch (by simp) ihs _
  | @one _ b _ _ _ _ _ _ r ht _ _ ihs =>
    rcases r with e | ⟨K₁, c⟩
    · exact ihs
    · simpa [Except.map] using (ht.tells.append ihs).node
  | @two _ b c _ _ _ _ _ _ _ _ cs _ r ht _ _ _ ihs ihs' =>
    cases r <;> exact ((ht.tells.append ihs).append (ihs'.append_same cs)).node
  | @loop _ _ _ _ _ _ _ cs _ r ht _ _ ihs =>
    cases r <;> exact (ht.tells.append (ihs.append_same cs)).node

/-! ## The program -/

namespace Forest

theorem Rooted.shows {f : Forest} {t : Tree} (hf : f.Rooted) (ht : f.Reads t) : f.Shows t :=
  ⟨hf.toConsistent, ht, fun h => hf.eq_root_of_above (hf.above_of_mem_ids ht h)⟩

/-- A tree becomes the program when its root is cut from its parent. -/
theorem Consistent.rooted_reroot {f : Forest} (hf : f.Consistent) {t : Tree} (ht : f.Reads t) :
    let f' : Forest := { f.detach t.root with root := t.root }
    f'.Rooted ∧ f'.Carries t := by
  have hcut := hf.detach t.root
  have hrooted : Rooted { f.detach t.root with root := t.root } := by
    refine ⟨⟨hcut.parent?_iff, hcut.nodup_children, hcut.finite, ?_⟩, ?_⟩
    · change (f.detach t.root).contains t.root
      rw [contains, size_detach]
      exact ht.contains_of_mem_ids t.root_mem_ids
    · change (f.detach t.root).parent? t.root = none
      simp
  refine ⟨hrooted, hrooted.toConsistent, ht.congr fun i hi => ⟨?_, ?_⟩, rfl⟩
  · exact f.kind?_detach t.root i
  · change (f.detach t.root).children i = f.children i
    rw [Forest.children_detach, if_neg]
    exact fun hp => hf.not_above_parent hp (hf.above_of_mem_ids ht hi)

end Forest

namespace Edit

open Forest

/-- What is left of the program of a forest is the program of another. It is lighter,
    unless nothing was done at all. -/
structure Progress (f : Forest) (t : Tree) (f' : Forest) (t' : Tree) : Prop where
  rooted : f'.Rooted
  carries : f'.Carries t'
  keepsParts : Tree.KeepsParts [t] [t']
  eq_or_weight_lt : f' = f ∧ t' = t ∨ t'.weight < t.weight

variable {f f' : Forest} {t t' : Tree}

theorem Progress.refl (hf : f.Rooted) (h : f.Carries t) : Progress f t f t :=
  ⟨hf, h, .of_subset fun _ hu => hu, .inl ⟨rfl, rfl⟩⟩

/-- A program that is as it was is so in the forest that was. -/
theorem Progress.forest_eq (h : Progress f t f' t) : f' = f :=
  h.eq_or_weight_lt.elim (·.1) fun hlt => absurd hlt (Nat.lt_irrefl _)

theorem Progress.trans {f'' : Forest} {t'' : Tree} (h : Progress f t f' t')
    (h' : Progress f' t' f'' t'') : Progress f t f'' t'' := by
  refine ⟨h'.rooted, h'.carries, h.keepsParts.trans h'.keepsParts, ?_⟩
  rcases h.eq_or_weight_lt with ⟨rfl, rfl⟩ | hlt
  · exact h'.eq_or_weight_lt
  · rcases h'.eq_or_weight_lt with ⟨-, rfl⟩ | hlt'
    · exact .inr hlt
    · exact .inr (hlt'.trans hlt)

theorem Reduces.rooted {p p' : Tree} (hf : f.Rooted) (h : Reduces f p f' p') : f'.Rooted := by
  have houter : ¬ f.Inner [p.root] f.root := by
    rintro (hsize | ⟨m, -, habove, hne⟩)
    · exact Nat.not_lt.2 hsize (contains_iff.1 hf.contains_root)
    · exact hne (hf.eq_root_of_above habove)
  refine ⟨h.shows.consistent, ?_⟩
  rw [h.confined.root_eq, h.confined.parent?_eq houter, hf.parent?_root]

/-- A reduction of a part of the program is progress. -/
theorem Reduces.progress {p p' : Tree} (h : Reduces f p f' p') (hf : f.Rooted) (ls : List Level)
    (hcarries : f.Carries (Context.enclose ls p)) :
    Progress f (Context.enclose ls p) f' (Context.enclose ls p') := by
  refine ⟨h.rooted hf, h.carries_enclose ls hcarries, h.keepsParts.enclose ls, ?_⟩
  rcases h.eq_or_weight_lt with ⟨rfl, rfl⟩ | hlt
  · exact .inl ⟨rfl, rfl⟩
  · exact .inr (Context.weight_enclose_lt ls hlt)

/-- A reduction beside the program leaves it as it is. -/
theorem Reduces.carries_beside {p p' : Tree} (h : Reduces f p f' p') (hf : f.Rooted)
    (hcarries : f.Carries t) (hp : p.root ∉ t.ids) : f'.Carries t := by
  have hseparate : ∀ m ∈ [p.root], f.Separate m t.root := by
    refine List.forall_mem_singleton.2 ⟨fun ha => hp ?_, fun ha => hp ?_⟩
    · rw [← hcarries.root_eq] at ha
      rw [← hf.eq_root_of_above ha, hcarries.root_eq]
      exact t.root_mem_ids
    · exact (hf.mem_ids_iff hcarries.reads).2 ha
  refine ⟨h.shows.consistent, h.confined.reads hf.toConsistent hcarries.reads hseparate, ?_⟩
  rw [h.confined.root_eq, hcarries.root_eq]

/-- A pass makes progress, of which its result tells. -/
def Advance (f : Forest) (t : Tree) (r : Except Error Bool) (f' : Forest) : Prop :=
  ∃ t', Progress f t f' t' ∧ Tree.Tells [t] [t'] r

theorem Advance.isFault {e : Error} (h : Advance f t (.error e) f') : e.IsFault := by
  obtain ⟨t', -, htells⟩ := h
  exact htells

theorem Advance.eq_of_not_changed (h : Advance f t (.ok false) f') : f' = f := by
  obtain ⟨t', hprogress, htells⟩ := h
  obtain rfl : t' = t := List.singleton_inj.1 htells
  exact hprogress.forest_eq

theorem Advance.weight_lt (hf : f.Carries t) (h : Advance f t (.ok true) f') :
    f'.weight < f.weight := by
  obtain ⟨t', hprogress, htells⟩ := h
  rw [hprogress.carries.weight_eq, hf.weight_eq]
  simpa [Tree.Tells] using htells

/-! ## Folding the program -/

/-- The root of the program gives way to a tree below it, or beside it, which is the program
    then. -/
theorem ensures_replaceRoot (hf : f.Rooted) {u : Tree} (hu : f.Reads u)
    (hab : ¬ f.Above u.root f.root) :
    Ensures (replace f.root u.root) f fun r f' => r = .ok () ∧ f'.Rooted ∧ f'.Carries u := by
  refine (ensures_replace_detached hf.parent?_root hf.contains_root
    (hu.contains_of_mem_ids u.root_mem_ids) hab).mono ?_
  rintro _ _ ⟨rfl, rfl⟩
  rw [if_pos rfl]
  exact ⟨rfl, hf.rooted_reroot hu⟩

/-- The forest has made progress, and its program is the only tree. -/
def HoldsProgram (f : Forest) (t : Tree) (f' : Forest) (ts : List Tree) : Prop :=
  ∃ t', ts = [t'] ∧ Progress f t f' t'

theorem ensures_replaceRootByLeaf {g : Forest} {u : Tree} {k : Kind}
    (h : HoldsProgram f t g [u]) (hu : 1 < u.weight) (hk : k.IsResidue) :
    Ensures (do replace u.root (← leaf k)) g fun r g' =>
      r = .ok () ∧ HoldsProgram f t g' [.node g.size k []] := by
  obtain ⟨_, ⟨⟩, h⟩ := h
  have hrooted : (g.grow k).Rooted :=
    ⟨h.rooted.grow k, (parent?_grow g g.root k).trans h.rooted.parent?_root⟩
  rw [ensures_bind, ensures_leaf, ← h.carries.root_eq]
  refine (ensures_replaceRoot hrooted (g.reads_grow k)
    (not_above_grow h.rooted.toConsistent k h.rooted.contains_root)).mono ?_
  rintro _ g' ⟨rfl, hrooted', hcarries'⟩
  have hlt : (Tree.node g.size k []).weight < u.weight := by simpa [hk.weight_eq] using hu
  exact ⟨rfl, _, rfl, h.trans ⟨hrooted', hcarries', .leaf _ _ hk, .inr hlt⟩⟩

theorem amongStatements_root (hf : f.Rooted) (h : f.Carries t) :
    f.amongStatements t.root = false := by
  rw [amongStatements, ← h.root_eq, hf.parent?_root]
  rfl

/-- The root of a program is a place, which is not among statements. -/
theorem place_root : Place false (HoldsProgram f t) where
  consistent := by
    rintro g _ ⟨_, ⟨⟩, h⟩
    exact h.rooted.toConsistent
  reads := by
    rintro g _ ⟨_, ⟨⟩, h⟩
    exact h.carries.reads
  replaceByLeaf := ensures_replaceRootByLeaf
  giveWay_none := by
    rintro g u ⟨_, ⟨⟩, h⟩ hu
    rw [giveWay, ensures_bind, ensures_get]
    simp only [amongStatements_root h.rooted h.carries]
    exact ensures_replaceRootByLeaf ⟨_, rfl, h⟩ hu (.inl rfl)
  giveWay_some := by
    rintro g ⟨i, k, cs⟩ b ⟨_, ⟨⟩, h⟩ hb
    have hp := h.rooted.parent?_of_mem_children h.carries.reads hb
    have hroot : g.root = i := h.carries.root_eq
    rw [giveWay, ensures_bind, ensures_get]
    simp only [amongStatements_root h.rooted h.carries]
    subst hroot
    refine (ensures_replaceRoot h.rooted (h.carries.reads.of_mem_children hb)
      (h.rooted.not_above_parent hp)).mono ?_
    rintro _ g' ⟨rfl, hrooted', hcarries'⟩
    have hlt := Tree.weight_lt_of_mem_children hb
    exact ⟨rfl, b, by simp [Tree.asBranch], h.trans ⟨hrooted', hcarries', .child hb, .inr hlt⟩⟩

/-- The children of the root are folded as anything else. -/
theorem visitsIn_root {depth : Nat} {i : NodeId} {k : Kind} {c : Tree} (m : String)
    (hd : c.ids.length ≤ depth) :
    VisitsIn (fun g ts => HoldsProgram f t g [.node i k ts]) (foldWithin depth m)
      (Folds m k.holdsStatements) c := by
  rintro g l r ⟨_, ⟨⟩, h⟩
  have hvisit := (foldsTree_foldWithin depth m c hd _).below rfl [] i (.refl h.carries.shows)
  refine hvisit.mono ?_
  rintro x g' ⟨us, hus, h'⟩
  exact ⟨us, hus, _, rfl, h.trans (h'.progress h.rooted [] h.carries)⟩

/-- A pass folds the program, whatever its root is. -/
theorem ensures_foldProgram_folds (hf : f.Rooted) (h : f.Carries t) :
    Ensures foldProgram f fun r f' =>
      ∃ u, Folds outsideMethods false [t] [u] r ∧ Progress f t f' u := by
  obtain ⟨i, k, cs⟩ := t
  have hsize := hf.length_ids_le_size h.reads
  rw [Tree.ids_node, List.length_cons] at hsize
  obtain ⟨depth, hdepth⟩ : ∃ depth, f.size = depth + 1 := ⟨f.size - 1, by omega⟩
  rw [foldProgram, ensures_bind, ensures_get]
  simp only [hdepth, show f.root = i from h.root_eq]
  refine (ensures_foldWithin_succ place_root (fun m t ht => visitsIn_root m ?_)
    ⟨_, rfl, .refl hf h⟩).mono ?_
  · have := Tree.length_ids_le ht
    omega
  · rintro r f' ⟨_, hus, u, rfl, h'⟩
    exact ⟨u, hus, h'⟩

theorem ensures_foldProgram_advance (hf : f.Rooted) (h : f.Carries t) :
    Ensures foldProgram f (Advance f t) :=
  (ensures_foldProgram_folds hf h).mono fun _ _ ⟨u, hu, h'⟩ => ⟨u, h', hu.tells⟩

/-! ## Propagation through the program -/

/-- Propagation goes through a method, which may be out of the program by then. -/
theorem ensures_propagateAlone_advance {g : Forest} {b : Bool} (h : Advance f t (.ok b) g)
    {m : NodeId} (hm : m ∈ t.ids) (hg : g.contains m) :
    Ensures (propagateAlone m) g fun r g' =>
      Advance f t (r.map (b || ·)) g' ∧ g.size ≤ g'.size := by
  obtain ⟨t', hprogress, htells⟩ := h
  have hrooted := hprogress.rooted
  obtain ⟨⟨i, k, cs⟩, hreads, hi⟩ := hrooted.exists_reads hg
  change i = m at hi
  subst i
  refine (ensures_propagateAlone (hrooted.shows hreads)).mono ?_
  rintro _ g' ⟨ds, r, hds, hreduces, rfl⟩
  refine ⟨?_, hreduces.confined.size_le⟩
  by_cases hm' : m ∈ t'.ids
  · obtain ⟨u, hu, hroot⟩ := List.mem_map.1 hm'
    obtain rfl := (hprogress.carries.reads.of_mem_subtrees hu).eq_of_root_eq hreads hroot
    obtain ⟨ls, rfl⟩ := Context.exists_enclose hu
    exact ⟨_, hprogress.trans (hreduces.progress hrooted ls hprogress.carries),
      htells.trans (hds.tells.node.enclose ls)⟩
  -- The method has been taken out, and nothing in the program changes any more.
  · have hne : t' ≠ t := fun heq => hm' (heq ▸ hm)
    have hlt := hprogress.eq_or_weight_lt.resolve_left fun h => hne h.2
    refine ⟨t', ⟨hreduces.rooted hrooted, hreduces.carries_beside hrooted hprogress.carries hm',
      hprogress.keepsParts, .inr hlt⟩, ?_⟩
    obtain rfl : b = true := by
      cases b with
      | false => exact absurd (List.singleton_inj.1 htells) hne
      | true => rfl
    rcases r with e | c
    · exact hds.tells
    · exact htells

/-- Propagation goes through methods one after the other. -/
theorem ensures_visitAll_advance {ms : List NodeId} {g : Forest} {b : Bool}
    (h : Advance f t (.ok b) g) (hms : ∀ m ∈ ms, m ∈ t.ids ∧ g.contains m) :
    Ensures (visitAll propagateAlone ms) g fun r g' => Advance f t (r.map (b || ·)) g' := by
  induction ms generalizing g b with
  | nil => simpa [visitAll, Except.map] using h
  | cons m ms ih =>
    obtain ⟨hm, hms⟩ := List.forall_mem_cons.1 hms
    refine (ensures_propagateAlone_advance h hm.1 hm.2).bind ?_ fun _ _ h₁ => h₁.1
    rintro c g₁ ⟨h₁, hsize⟩
    have hms₁ : ∀ m ∈ ms, m ∈ t.ids ∧ g₁.contains m := fun m hm =>
      ⟨(hms m hm).1, contains_iff.2 ((contains_iff.1 (hms m hm).2).trans_le hsize)⟩
    refine (ih h₁ hms₁).bind ?_ fun _ _ h₂ => h₂
    intro d g₂ h₂
    simpa [Except.map, Bool.or_assoc] using h₂

theorem ensures_propagateProgram_advance (hf : f.Rooted) (h : f.Carries t) :
    Ensures propagateProgram f (Advance f t) := by
  rw [propagateProgram_eq, ensures_bind, ensures_get]
  have hstart : Advance f t (.ok false) f := ⟨t, .refl hf h, rfl⟩
  refine (ensures_visitAll_advance hstart fun m hm => ?_).mono ?_
  · have hm := List.mem_of_mem_filter hm
    have habove := hf.mem_program_iff.1 hm
    have hmem : m ∈ t.ids := (hf.mem_ids_iff h.reads).2 (h.root_eq ▸ habove)
    exact ⟨hmem, h.reads.contains_of_mem_ids hmem⟩
  · intro r f' h'
    cases r <;> simpa [Except.map] using h'

end Edit

/-! ## What a pass tells -/

/-- A pass that tells of no change has left the whole forest as it was. After one that
    tells of a change there are fewer nodes in the program, or as many with fewer
    identifiers among them. -/
theorem passes_tell_changes {f f' : Forest} (hf : f.Consistent) (hroot : f.parent? f.root = none)
    {pass : Edit Bool} (hpass : pass = Edit.foldProgram ∨ pass = Edit.propagateProgram)
    {changed : Bool} (h : pass f = .ok changed f') :
    (∀ g ∈ [f, f'], g.program.Nodup ∧ ∀ i, i ∈ g.program ↔ g.Above g.root i) ∧
      (changed = false → f' = f) ∧ (changed = true → f'.weight < f.weight) := by
  have hrooted : f.Rooted := ⟨hf, hroot⟩
  obtain ⟨t, hcarries⟩ := hf.exists_carries
  have hadvance : Edit.Advance f t (.ok changed) f' := by
    rcases hpass with rfl | rfl
    · exact (Edit.ensures_foldProgram_advance hrooted hcarries).of_eq_ok h
    · exact (Edit.ensures_propagateProgram_advance hrooted hcarries).of_eq_ok h
  obtain ⟨t', hprogress, -⟩ := id hadvance
  have hlists : ∀ {g : Forest}, g.Consistent →
      g.program.Nodup ∧ ∀ i, i ∈ g.program ↔ g.Above g.root i := fun hg =>
    ⟨hg.nodup_program, fun _ => hg.mem_program_iff⟩
  refine ⟨by simpa using ⟨hlists hf, hlists hprogress.rooted.toConsistent⟩, ?_, ?_⟩
  · rintro rfl
    exact hadvance.eq_of_not_changed
  · rintro rfl
    exact hadvance.weight_lt hcarries

/-- A method in a branch of another one that is not taken. It is no longer in the program
    when its turn comes. -/
def methodInBranch : Forest where
  nodes := #[
    { kind := .program, children := [1] },
    { kind := .method "f", parent := some 0, children := [2, 3, 5] },
    { kind := .varDecl "x" "int", parent := some 1 },
    { kind := .assignment "x", parent := some 1, children := [4] },
    { kind := .integer 1, parent := some 3 },
    { kind := .conditional, parent := some 1, children := [6, 7, 8] },
    { kind := .boolean true, parent := some 5 },
    { kind := .block, parent := some 5 },
    { kind := .method "g", parent := some 5, children := [9, 10, 12] },
    { kind := .varDecl "y" "int", parent := some 8 },
    { kind := .assignment "y", parent := some 8, children := [11] },
    { kind := .integer 2, parent := some 10 },
    { kind := .returnStmt, parent := some 8, children := [13] },
    { kind := .identifier "y", parent := some 12 }]
  root := 0

theorem passes_tell_changes_methodInBranch :
    let f := after Edit.propagateProgram methodInBranch
    Edit.propagateProgram methodInBranch = .ok true f ∧ f.children 12 = [14] ∧
      methodInBranch.weight = 15 ∧ f.weight < 15 ∧ Edit.foldProgram f = .ok false f := by
  intro f
  have hf : methodInBranch.Consistent :=
    Forest.consistent_of_ordered (by decide) (by decide +kernel) (by decide +kernel)
  have hrun : Edit.propagateProgram methodInBranch = .ok true f := by rfl
  have hweight : methodInBranch.weight = 15 := by decide +kernel
  have hlt := (passes_tell_changes hf rfl (.inr rfl) hrun).2.2 rfl
  obtain ⟨t, ht⟩ := hf.exists_carries
  obtain ⟨t', hprogress, -⟩ := (Edit.ensures_propagateProgram_advance ⟨hf, rfl⟩ ht).of_eq_ok hrun
  have hrooted := hprogress.rooted
  have hfold : Edit.foldProgram f = .ok false (after Edit.foldProgram f) := by rfl
  refine ⟨hrun, by decide +kernel, hweight, hweight ▸ hlt, ?_⟩
  rwa [(passes_tell_changes hrooted.toConsistent hrooted.parent?_root (.inl rfl) hfold).2.1 rfl]
    at hfold

end Midend
