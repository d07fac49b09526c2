import Midend.Proofs.Constant.Branch
import Midend.Proofs.Tree.Confinement

/-!
# Reductions

All that the passes do to a forest is to let trees give way, one after the other, to a
leaf, to a branch or to nothing (`Edit.Yields`). Within a tree that the forest shows,
such edits make a *reduction* (`Edit.Reduces`). What holds of every reduction follows
from what holds of one edit:

* `Reduces.shows`: the forest shows what is left of the tree;
* `Reduces.confined`: only what is below the root of the tree is different;
* `Reduces.eq_or_weight_lt`: the tree is lighter, unless nothing was done at all;
* `Reduces.keepsParts`: a conditional or a loop that is left was there before, with as
  many parts.

What a visit does to a tree is said by a relation between trees. Wherever the tree
stands, the visit is a reduction (`Visits`).
-/

namespace Midend

namespace Tree

/-! ## Parts of conditionals and loops -/

/-- The conditionals and loops that are left were there before, with as many parts. -/
def KeepsParts (ts us : List Tree) : Prop :=
  ∀ u ∈ us.flatMap subtrees, u.kind.isControl → ∃ t ∈ ts.flatMap subtrees,
    t.root = u.root ∧ t.kind = u.kind ∧ t.children.length = u.children.length

namespace KeepsParts

variable {ts us vs : List Tree}

theorem of_subset (h : us.flatMap subtrees ⊆ ts.flatMap subtrees) : KeepsParts ts us :=
  fun u hu _ => ⟨u, h hu, rfl, rfl, rfl⟩

theorem trans (h : KeepsParts ts us) (h' : KeepsParts us vs) : KeepsParts ts vs := by
  intro v hv hc
  obtain ⟨u, hu, hroot, hkind, hlen⟩ := h' v hv hc
  obtain ⟨t, ht, hroot', hkind', hlen'⟩ := h u hu (hkind ▸ hc)
  exact ⟨t, ht, hroot'.trans hroot, hkind'.trans hkind, hlen'.trans hlen⟩

theorem leaf (ts : List Tree) (i : NodeId) {k : Kind} (hk : k.IsResidue) :
    KeepsParts ts [.node i k []] := by
  intro u hu hc
  obtain rfl : u = .node i k [] := by simpa using hu
  exact absurd hc hk.not_isControl

theorem child {b t : Tree} (hb : b ∈ t.children) : KeepsParts [t] [b] := by
  refine of_subset fun u hu => ?_
  obtain ⟨i, k, cs⟩ := t
  simp only [List.flatMap_singleton, subtrees_node] at hu ⊢
  exact List.mem_cons_of_mem _ (List.mem_flatMap.2 ⟨b, hb, hu⟩)

theorem asBranch (b : Tree) (a : Bool) : KeepsParts [b] (b.asBranch a) := by
  refine of_subset fun u hu => ?_
  unfold Tree.asBranch at hu
  split at hu
  · obtain ⟨i, k, cs⟩ := b
    rw [List.flatMap_singleton, subtrees_node]
    exact List.mem_cons_of_mem _ hu
  · exact hu

/-- A node around the trees has as many parts as before if they are as many. -/
theorem fill {l : Level} (h : KeepsParts ts us) (hlen : l.kind.isControl → us.length = ts.length) :
    KeepsParts [l.fill ts] [l.fill us] := by
  intro u hu hc
  simp only [List.flatMap_singleton, Level.fill, subtrees_node, List.mem_cons, List.flatMap_append,
    List.mem_append] at hu ⊢
  rcases hu with rfl | (hu | hu) | hu
  · exact ⟨_, .inl rfl, rfl, rfl, by simp [hlen hc]⟩
  · exact ⟨u, .inr (.inl (.inl hu)), rfl, rfl, rfl⟩
  · obtain ⟨t, ht, hsame⟩ := h u hu hc
    exact ⟨t, .inr (.inl (.inr ht)), hsame⟩
  · exact ⟨u, .inr (.inr hu), rfl, rfl, rfl⟩

theorem enclose (ls : List Level) {t u : Tree} (h : KeepsParts [t] [u]) :
    KeepsParts [Context.enclose ls t] [Context.enclose ls u] := by
  induction ls generalizing t u with
  | nil => exact h
  | cons l ls ih => exact ih (h.fill fun _ => rfl)

/-- In a list of statements there may be more trees or less, and nowhere else. -/
theorem plug {C : Context} (h : KeepsParts ts us)
    (hlen : C.amongStatements = false → us.length = ts.length) :
    KeepsParts [C.plug ts] [C.plug us] := by
  refine enclose C.outer (h.fill fun hc => hlen ?_)
  rw [Context.amongStatements]
  rcases Kind.eq_of_isControl hc with hk | hk <;> rw [hk] <;> rfl

end KeepsParts

end Tree

namespace Edit

open Forest Midend.Tree

/-! ## One edit -/

/-- A tree gives way to others, among statements or not, and another forest is left. -/
inductive Yields (f : Forest) (a : Bool) (t : Tree) : List Tree → Forest → Prop
  | leaf {k : Kind} {f' : Forest} : 1 < t.weight → k.IsResidue →
    (do replace t.root (← leaf k) : Edit Unit) f = .ok () f' →
    Yields f a t [.node f.size k []] f'
  | nothing {f' : Forest} : 1 < t.weight → giveWay t.root none f = .ok () f' →
    Yields f a t (vacant a f.size) f'
  | branch {b : Tree} {f' : Forest} : b ∈ t.children →
    giveWay t.root (some b.root) f = .ok () f' → Yields f a t (b.asBranch a) f'

theorem weightOf_vacant_le (a : Bool) (i : NodeId) : weightOf (vacant a i) ≤ 1 := by
  cases a with
  | true => exact Nat.zero_le 1
  | false => simp [vacant, Kind.IsResidue.weight_eq (.inl rfl)]

theorem weightOf_asBranch_le (b : Tree) (a : Bool) : weightOf (b.asBranch a) ≤ b.weight := by
  obtain ⟨i, k, cs⟩ := b
  unfold Tree.asBranch
  split <;> simp

/-- A statement gives way to one of its children, or to nothing. -/
theorem confined_giveWay {f g : Forest} {ms : List NodeId} (hf : f.Consistent)
    (h : f.Confined ms g) {i : NodeId} (hi : f.Inner ms i) (hroot : i ≠ g.root)
    {branch : Option NodeId} (hb : ∀ b ∈ branch, b ∈ g.children i) :
    Ensures (giveWay i branch) g fun _ g' => f.Confined ms g' := by
  rw [giveWay, ensures_bind, ensures_get]
  cases branch with
  | none =>
    cases hamong : g.amongStatements i with
    | false =>
      simp only [hamong]
      exact confined_replaceByLeaf hf h hi hroot .block
    | true =>
      simp only [hamong]
      exact confined_delete hf h hi hroot
  | some b =>
    have hbi : f.Inner ms b := h.inner_of_mem_children hf (hb b rfl) (.inl hi)
    have hreplace := confined_replace hf h hi hbi hroot
    cases hamong : g.amongStatements i with
    | false =>
      simp only [hamong]
      exact hreplace
    | true =>
      simp only [hamong]
      split
      · refine confined_splice hf h hi (fun n hn => ⟨?_, ?_⟩) (h.consistent.nodup_children b)
        · exact h.inner_of_mem_children hf hn (.inl hbi)
        · exact g.contains_of_parent? n (h.consistent.parent?_iff.2 hn)
      · exact hreplace

namespace Yields

variable {f f' : Forest} {a : Bool} {C : Context} {t : Tree} {us : List Tree}

/-- What is left is lighter. -/
theorem weight_lt (h : Yields f a t us f') : weightOf us < t.weight := by
  cases h with
  | leaf ht hk => simpa [hk.weight_eq] using ht
  | nothing ht => exact Nat.lt_of_le_of_lt (weightOf_vacant_le a _) ht
  | @branch b _ hb =>
    exact Nat.lt_of_le_of_lt (weightOf_asBranch_le b a) (weight_lt_of_mem_children hb)

/-- Where one node must be, one is left. -/
theorem length_eq (h : Yields f false t us f') : us.length = 1 := by
  cases h with
  | leaf => rfl
  | nothing => rfl
  | branch => simp [Tree.asBranch]

theorem keepsParts (h : Yields f a t us f') : KeepsParts [t] us := by
  cases h with
  | leaf _ hk => exact .leaf _ _ hk
  | nothing =>
    cases a with
    | true => exact .of_subset (List.nil_subset _)
    | false => exact .leaf _ _ (.inl rfl)
  | branch hb => exact (KeepsParts.child hb).trans (.asBranch _ a)

/-- What a tree gives way to is shown in its place. -/
theorem shows (h : f.Shows (C.plug [t])) (hy : Yields f C.amongStatements t us f') :
    f'.Shows (C.plug us) := by
  cases hy with
  | @leaf k _ _ _ hrun => exact ((ensures_replaceByLeaf h k).of_eq_ok hrun).2
  | nothing _ hrun => exact ((ensures_giveWay_none h).of_eq_ok hrun).2
  | branch hb hrun => exact ((ensures_giveWay_some h hb).of_eq_ok hrun).2

/-- Only what is below the root is different. -/
theorem confined {f₀ : Forest} {ms : List NodeId} (hf₀ : f₀.Consistent) (hc : f₀.Confined ms f)
    (hm : (C.plug [t]).root ∈ ms) (h : f.Shows (C.plug [t]))
    (hy : Yields f C.amongStatements t us f') : f₀.Confined ms f' := by
  obtain ⟨habove, hne⟩ := h.above_of_mem
  have hinner : f₀.Inner ms t.root := hc.inner_of_above hf₀ hm habove hne
  have hroot : t.root ≠ f.root := fun heq => h.root_notMem (heq ▸ t.root_mem_ids)
  have ht := h.reads.of_mem_plug (List.mem_singleton.2 rfl)
  cases hy with
  | @leaf k _ _ _ hrun => exact (confined_replaceByLeaf hf₀ hc hinner hroot k).of_eq_ok hrun
  | nothing _ hrun => exact (confined_giveWay hf₀ hc hinner hroot (by simp)).of_eq_ok hrun
  | @branch b _ hb hrun =>
    refine (confined_giveWay hf₀ hc hinner hroot ?_).of_eq_ok hrun
    rintro _ ⟨⟩
    rw [ht.children_eq]
    exact List.mem_map_of_mem hb

end Yields

/-! ## Many edits -/

/-- Edits within the tree that the forest shows, one after the other, have led to another
    forest and left another tree. -/
inductive Reduces (f : Forest) (p : Tree) : Forest → Tree → Prop
  | refl : f.Shows p → Reduces f p f p
  | step {g g' : Forest} {C : Context} {t : Tree} {us : List Tree} : Reduces f p g (C.plug [t]) →
    Yields g C.amongStatements t us g' → Reduces f p g' (C.plug us)

namespace Reduces

variable {f f' : Forest} {p p' : Tree}

theorem shows (h : Reduces f p f' p') : f'.Shows p' := by
  induction h with
  | refl h => exact h
  | step _ hy ih => exact hy.shows ih

theorem consistent (h : Reduces f p f' p') : f.Consistent := by
  induction h with
  | refl h => exact h.consistent
  | step _ _ ih => exact ih

theorem root_eq (h : Reduces f p f' p') : p'.root = p.root := by
  induction h with
  | refl => rfl
  | @step _ _ C t us _ _ ih => exact (C.root_plug us [t]).trans ih

theorem confined (h : Reduces f p f' p') : f.Confined [p.root] f' := by
  induction h with
  | refl h => exact .refl h.consistent _
  | step h hy ih =>
    exact hy.confined h.consistent ih (List.mem_singleton.2 h.root_eq) h.shows

theorem keepsParts (h : Reduces f p f' p') : KeepsParts [p] [p'] := by
  induction h with
  | refl => exact .of_subset fun _ hu => hu
  | step _ hy ih => exact ih.trans (hy.keepsParts.plug fun ha => (ha ▸ hy).length_eq)

/-- Each edit makes the tree lighter. -/
theorem eq_or_weight_lt (h : Reduces f p f' p') : f' = f ∧ p' = p ∨ p'.weight < p.weight := by
  induction h with
  | refl => exact .inl ⟨rfl, rfl⟩
  | @step g g' C t us _ hy ih =>
    have hlt : (C.plug us).weight < (C.plug [t]).weight :=
      C.weight_plug_lt (by simpa using hy.weight_lt)
    rcases ih with ⟨-, heq⟩ | ih
    · exact .inr (heq ▸ hlt)
    · exact .inr (hlt.trans ih)

/-- Around the tree all is as it was. -/
theorem carries_enclose (h : Reduces f p f' p') (ls : List Level)
    (hf : f.Carries (Context.enclose ls p)) : f'.Carries (Context.enclose ls p') := by
  have hc := h.confined
  have hp : f.Reads p := hf.reads.of_enclose
  have hnd := (Context.ids_enclose ls p).nodup_iff.1 (hf.consistent.nodup_ids hf.reads)
  refine ⟨h.shows.consistent, hf.reads.enclose_congr (fun i hi => ?_) h.shows.reads h.root_eq, ?_⟩
  · have hcontains : f.contains i := hf.reads.contains_of_mem_ids
      ((Context.ids_enclose ls p).mem_iff.2 (List.mem_append_left _ hi))
    have hout : i ∉ p.ids := fun hip => (List.nodup_append'.1 hnd).2.2 hi hip
    refine ⟨hc.kind?_eq hcontains, hc.children_eq ?_ fun hm => hout ?_⟩
    · rintro (hsize | ⟨m, hm, habove, -⟩)
      · exact Nat.not_lt.2 hsize (contains_iff.1 hcontains)
      · obtain rfl := List.mem_singleton.1 hm
        exact hout ((hf.consistent.mem_ids_iff hp).2 habove)
    · rw [List.mem_singleton.1 hm]
      exact p.root_mem_ids
  · rw [hc.root_eq, hf.root_eq]
    exact Context.root_enclose ls h.root_eq.symm

theorem carries (h : Reduces f p f' p') (hf : f.Carries p) : f'.Carries p' :=
  h.carries_enclose [] hf

end Reduces

/-! ## Places and visits -/

variable {f g : Forest} {p t : Tree} {C : Context} {a : Bool}

/-- Trees give way in every place of a tree that is reduced. -/
theorem place_context (ha : C.amongStatements = a) :
    Place a fun g ts => Reduces f p g (C.plug ts) where
  consistent h := h.shows.consistent
  reads h := h.shows.reads.of_mem_plug (List.mem_singleton.2 rfl)
  replaceByLeaf {g t k} h ht hk := by
    obtain ⟨g', hrun, -⟩ := (ensures_replaceByLeaf h.shows k).exists_eq_ok
    exact ensures_of_eq_ok hrun ⟨rfl, h.step (.leaf ht hk hrun)⟩
  giveWay_none {g t} h ht := by
    obtain ⟨g', hrun, -⟩ := (ensures_giveWay_none h.shows).exists_eq_ok
    exact ensures_of_eq_ok hrun ⟨rfl, h.step (ha ▸ .nothing ht hrun)⟩
  giveWay_some {g t b} h hb := by
    obtain ⟨g', hrun, -⟩ := (ensures_giveWay_some h.shows hb).exists_eq_ok
    exact ensures_of_eq_ok hrun ⟨rfl, h.step (ha ▸ .branch hb hrun)⟩

/-- A visit of the tree is as a relation says, in all places among statements or in all
    others, and is a reduction of what is around the place. -/
def Visits {α : Type} (visit : NodeId → Edit α) (a : Bool)
    (rel : List Tree → List Tree → Except Error α → Prop) (t : Tree) : Prop :=
  ∀ ⦃f : Forest⦄ ⦃p : Tree⦄ ⦃g : Forest⦄ ⦃C : Context⦄, C.amongStatements = a →
    Reduces f p g (C.plug [t]) →
    Ensures (visit t.root) g fun r g' => ∃ us, rel [t] us r ∧ Reduces f p g' (C.plug us)

theorem Visits.visitsIn {α : Type} {visit : NodeId → Edit α}
    {rel : List Tree → List Tree → Except Error α → Prop} (h : Visits visit a rel t)
    (ha : C.amongStatements = a) :
    VisitsIn (fun g ts => Reduces f p g (C.plug ts)) visit rel t := by
  intro g l r hg
  have ht : Reduces f p g (((C.afterTrees l).beforeTrees r).plug [t]) := by simpa using hg
  simpa using h (C := (C.afterTrees l).beforeTrees r) ha ht

/-- The children of a node in a place are visited as in any other one. -/
theorem Visits.below {α : Type} {visit : NodeId → Edit α}
    {rel : List Tree → List Tree → Except Error α → Prop} (h : Visits visit a rel t) {k : Kind}
    (ha : k.holdsStatements = a) (ls : List Level) (i : NodeId) :
    VisitsIn (fun g ts => Reduces f p g (Context.enclose ls (.node i k ts))) visit rel t := by
  simpa using h.visitsIn (C := .allChildren i k ls) ha

theorem Visits.inside {α : Type} {visit : NodeId → Edit α}
    {rel : List Tree → List Tree → Except Error α → Prop} (h : Visits visit a rel t) {k : Kind}
    (ha : k.holdsStatements = a) (C : Context) (i : NodeId) :
    VisitsIn (fun g ts => Reduces f p g (C.plug [.node i k ts])) visit rel t :=
  h.below ha (C.level :: C.outer) i

theorem ensures_visitAll {visit : NodeId → Edit Bool}
    {rel : List Tree → List Tree → Except Error Bool → Prop} (hrel : Sequential rel)
    {ts : List Tree} (hvisit : ∀ t ∈ ts, Visits visit a rel t) (ha : C.amongStatements = a)
    (h : Reduces f p g (C.plug ts)) :
    Ensures (visitAll visit (ts.map Tree.root)) g fun r g' =>
      ∃ us, rel ts us r ∧ Reduces f p g' (C.plug us) := by
  simpa using ensures_visitAllIn hrel (fun t ht => (hvisit t ht).visitsIn ha) (l := []) (r := [])
    (by simpa using h)

end Edit

end Midend
