import Mathlib.Data.List.Forall2
import Midend.Constant.Propagation
import Midend.Proofs.Tree.Context
import Midend.Proofs.Tree.Meaning
import Midend.Proofs.Tree.Shape

/-!
# The methods of a program

The methods of a forest are those of its program, read as a tree. Two programs
whose methods are at the same nodes and mean the same, one by one, are not told
apart by running their methods (`Forest.sameOutcomes_of_sameMethods`).
-/

namespace Midend

namespace Tree

/-- The methods among the subtrees, in preorder. -/
def methods (t : Tree) : List Tree := t.subtrees.filter fun u => u.kind.isMethod

theorem methods_node (i : NodeId) (k : Kind) (cs : List Tree) :
    (node i k cs).methods =
      (if k.isMethod then [node i k cs] else []) ++ cs.flatMap methods := by
  rw [methods, subtrees_node, List.filter_cons, kind_node, List.filter_flatMap]
  split <;> rfl

theorem IsExpr.of_mem_subtrees {t u : Tree} (h : t.IsExpr) (hu : u ∈ t.subtrees) : u.IsExpr := by
  induction h with
  | node i hk hcs ih =>
    rw [subtrees_node, List.mem_cons, List.mem_flatMap] at hu
    rcases hu with rfl | ⟨c, hc, hu⟩
    · exact .node i hk hcs
    · exact ih c hc hu

theorem IsStmt.of_mem_subtrees {t u : Tree} (h : t.IsStmt) (hu : u ∈ t.subtrees) :
    u.IsExpr ∨ u.IsStmt := by
  induction h with
  | simple i hk hcs =>
    rw [subtrees_node, List.mem_cons, List.mem_flatMap] at hu
    rcases hu with rfl | ⟨c, hc, hu⟩
    · exact .inr (.simple i hk hcs)
    · exact .inl ((hcs c hc).of_mem_subtrees hu)
  | block i hcs ih =>
    rw [subtrees_node, List.mem_cons, List.mem_flatMap] at hu
    rcases hu with rfl | ⟨c, hc, hu⟩
    · exact .inr (.block i hcs)
    · exact ih c hc hu
  | conditional i ht hlen hbs ih =>
    rw [subtrees_node, List.mem_cons, List.flatMap_cons, List.mem_append, List.mem_flatMap] at hu
    rcases hu with rfl | hu | ⟨b, hb, hu⟩
    · exact .inr (.conditional i ht hlen hbs)
    · exact .inl (ht.of_mem_subtrees hu)
    · exact ih b hb hu
  | loop i ht hb ih =>
    rw [subtrees_node, List.mem_cons, List.flatMap_cons, List.mem_append,
      List.flatMap_singleton] at hu
    rcases hu with rfl | hu | hu
    · exact .inr (.loop i ht hb)
    · exact .inl (ht.of_mem_subtrees hu)
    · exact ih hu

theorem declares?_eq_none {t : Tree} (h : t.kind.role ≠ .variable) : t.declares? = none := by
  obtain ⟨i, k, cs⟩ := t
  cases k <;> first | rfl | exact absurd rfl h

theorem IsStmt.declares?_eq {t : Tree} (h : t.IsStmt) : t.declares? = none :=
  declares?_eq_none fun heq => by simpa [heq] using h.role_mem

/-- In an expression or a statement there are no methods and no declarations. -/
theorem IsStmt.role_of_mem_subtrees {t u : Tree} (h : t.IsStmt) (hu : u ∈ t.subtrees) :
    u.kind.role ≠ .method ∧ u.kind.role ≠ .variable := by
  rcases h.of_mem_subtrees hu with hu | hu
  · simp [hu.role_eq]
  · exact ⟨fun heq => by simpa [heq] using hu.role_mem, fun heq => by simpa [heq] using hu.role_mem⟩

/-- There are no methods in methods. -/
theorem IsItem.methods_eq {d : Prop} {t : Tree} (h : t.IsItem d) : t.methods = [] := by
  rcases h with ⟨-, h⟩ | h
  · cases h with
    | node _ hk => simp [methods_node, Kind.isMethod_eq_false, of_decide_eq_true hk]
  · refine List.filter_eq_nil_iff.2 fun u hu => ?_
    simp [Kind.isMethod_eq_false (h.role_of_mem_subtrees hu).1]

/-- Variables are declared by the children of a method only. -/
theorem IsItem.declares?_subtrees {d : Prop} {t : Tree} (h : t.IsItem d) :
    t.subtrees.filterMap declares? = t.declares?.toList := by
  rcases h with ⟨-, h⟩ | h
  · cases h
    rw [subtrees_node, List.filterMap_cons]
    split <;> simp_all
  · rw [h.declares?_eq]
    exact List.filterMap_eq_nil_iff.2 fun u hu => declares?_eq_none (h.role_of_mem_subtrees hu).2

theorem locals_eq_of_isMethod {i : NodeId} {k : Kind} {cs : List Tree} (hk : k.isMethod)
    (hcs : ∀ c ∈ cs, c.IsItem True) :
    NameSet.of ((node i k cs).subtrees.filterMap declares?) = (node i k cs).locals := by
  rw [Kind.isMethod_eq, decide_eq_true_iff] at hk
  have hnone : (node i k cs).declares? = none := declares?_eq_none (by simp [hk])
  rw [locals, subtrees_node, List.filterMap_cons, hnone, List.filterMap_flatMap,
    List.filterMap_eq_flatMap_toList]
  congr 1
  exact List.flatMap_congr fun c hc => (hcs c hc).declares?_subtrees

/-- The method is at the same node and means the same. -/
def SameMethod (u t : Tree) : Prop :=
  u.root = t.root ∧ ∀ {ρ ω : Type} (R : Runtime ρ ω), R.outcomes u = R.outcomes t

/-- The methods are at the same nodes and mean the same, one by one. -/
def SameMethods (us ts : List Tree) : Prop :=
  List.Forall₂ SameMethod (us.flatMap methods) (ts.flatMap methods)

theorem exists_sameMethod {us ts : List Tree} (h : List.Forall₂ SameMethod us ts) {t : Tree}
    (ht : t ∈ ts) : ∃ u ∈ us, SameMethod u t := by
  induction h with
  | nil => exact absurd ht List.not_mem_nil
  | cons hs _ ih =>
    rcases List.mem_cons.1 ht with rfl | ht
    · exact ⟨_, List.mem_cons_self, hs⟩
    · obtain ⟨u, hu, hs⟩ := ih ht
      exact ⟨u, List.mem_cons_of_mem _ hu, hs⟩

theorem SameMethods.refl (ts : List Tree) : SameMethods ts ts :=
  List.forall₂_same.2 fun _ _ => ⟨rfl, fun _ => rfl⟩

theorem SameMethods.append {ts us vs ws : List Tree} (h : SameMethods us ts)
    (h' : SameMethods ws vs) : SameMethods (us ++ ws) (ts ++ vs) := by
  rw [SameMethods, List.flatMap_append, List.flatMap_append]
  exact List.rel_append h h'

/-! ## Statements in the place of others -/

/-- Statements, and declarations where they may stand, are in the place of such,
    and declare the same names. -/
structure KeepsShape (d : Prop) (us ts : List Tree) : Prop where
  isItem : ∀ u ∈ us, u.IsItem d
  declares : us.filterMap declares? = ts.filterMap declares?

namespace KeepsShape

variable {d : Prop} {ts us vs ws : List Tree}

theorem append (h : KeepsShape d us ts) (h' : KeepsShape d ws vs) :
    KeepsShape d (us ++ ws) (ts ++ vs) where
  isItem u hu := (List.mem_append.1 hu).elim (h.isItem u) (h'.isItem u)
  declares := by rw [List.filterMap_append, List.filterMap_append, h.declares, h'.declares]

theorem of_isStmt (hus : ∀ u ∈ us, u.IsStmt) (hts : ∀ t ∈ ts, t.IsStmt) : KeepsShape d us ts where
  isItem u hu := (hus u hu).isItem
  declares := by
    rw [List.filterMap_eq_nil_iff.2 fun u hu => (hus u hu).declares?_eq,
      List.filterMap_eq_nil_iff.2 fun t ht => (hts t ht).declares?_eq]

theorem isStmt (h : KeepsShape False us ts) : ∀ u ∈ us, u.IsStmt := fun u hu =>
  isItem_false.1 (h.isItem u hu)

/-- A method with other statements that mean the same is the same method. -/
theorem sameMethods {i : NodeId} {k : Kind} (h : KeepsShape True us ts) (hk : k.isMethod)
    (hts : ∀ t ∈ ts, t.IsItem True)
    (hrun : ∀ {ρ ω : Type} (R : Runtime ρ ω),
      R.run (node i k ts).locals us = R.run (node i k ts).locals ts) :
    WellShaped (.node i k us) ∧ SameMethods [.node i k us] [.node i k ts] := by
  have hmethods : ∀ {ts : List Tree}, (∀ t ∈ ts, t.IsItem True) → ts.flatMap methods = [] :=
    fun hts => List.flatMap_eq_nil_iff.2 fun t ht => (hts t ht).methods_eq
  have hlocals : (node i k us).locals = (node i k ts).locals := congrArg NameSet.of h.declares
  refine ⟨.method i hk h.isItem, ?_⟩
  simp only [SameMethods, List.flatMap_singleton, methods_node, hk, if_true, hmethods h.isItem,
    hmethods hts, List.append_nil]
  refine .cons ⟨rfl, fun {ρ ω} R => ?_⟩ .nil
  rw [Runtime.outcomes, hlocals]
  exact hrun R

end KeepsShape

/-- What is around methods keeps its shape and its methods when its children do. -/
theorem WellShaped.scope_congr {i : NodeId} {k : Kind} {cs ds : List Tree} (hk : k.isScope)
    (hds : ∀ d ∈ ds, d.WellShaped) (hsame : SameMethods ds cs) :
    (node i k ds).WellShaped ∧ SameMethods [node i k ds] [node i k cs] := by
  have hm : k.isMethod = false := Kind.isMethod_eq_false (by simp [of_decide_eq_true hk])
  exact ⟨.scope i hk hds, by simpa [SameMethods, methods_node, hm] using hsame⟩

/-- A program keeps its shape and its methods when a part of it does in which there
    are methods. -/
theorem WellShaped.enclose {ls : List Level} {t u : Tree} (h : (Context.enclose ls t).WellShaped)
    (hm : t.methods ≠ []) (hu : t.WellShaped → u.WellShaped ∧ SameMethods [u] [t]) :
    (Context.enclose ls u).WellShaped ∧
      SameMethods [Context.enclose ls u] [Context.enclose ls t] := by
  induction ls generalizing t u with
  | nil => exact hu h
  | cons l ls ih =>
    obtain ⟨i, k, left, right⟩ := l
    have hmem : t ∈ left ++ [t] ++ right := by simp
    refine ih h (fun hnil => hm ?_) fun hfill => ?_
    · rw [Level.fill, methods_node] at hnil
      exact List.flatMap_eq_nil_iff.1 (List.append_eq_nil_iff.1 hnil).2 t hmem
    · simp only [Level.fill] at hfill ⊢
      generalize hcs : left ++ [t] ++ right = cs at hfill hmem
      -- A level around a method is a scope: in a method there are no methods.
      cases hfill with
      | method _ _ hitems => exact absurd (hitems t hmem).methods_eq hm
      | scope _ hk hws =>
        obtain ⟨hu, hsame⟩ := hu (hws t hmem)
        refine WellShaped.scope_congr hk (fun d hd => ?_)
          (hcs ▸ ((SameMethods.refl _).append hsame).append (.refl _))
        rw [List.append_assoc, List.mem_append, List.singleton_append, List.mem_cons] at hd
        rcases hd with hd | rfl | hd
        · exact hws d (by simp [← hcs, hd])
        · exact hu
        · exact hws d (by simp [← hcs, hd])
      | importDecl | field => exact absurd hmem List.not_mem_nil

end Tree

namespace Forest

variable {f f' : Forest} {t t' : Tree}

theorem Carries.methods_eq (h : f.Carries t) : f.methods = t.methods.map Tree.root := by
  rw [methods, program, h.root_eq, h.consistent.preorder_eq h.reads, Tree.ids, List.filter_map,
    Tree.methods]
  congr 1
  refine List.filter_congr fun u hu => ?_
  simp [(h.reads.of_mem_subtrees hu).kind?_eq]

theorem Reads.outcomes_eq {ρ ω : Type} (h : f.Reads t) (R : Runtime ρ ω) :
    f.Outcomes R t.root = R.outcomes t := by
  funext s e s'
  refine propext ⟨?_, fun ho => ⟨t, h, rfl, ho⟩⟩
  rintro ⟨u, hu, hroot, ho⟩
  rwa [h.eq_of_root_eq hu hroot.symm]

theorem Reads.declared_eq_of_subtrees (hf : f.Consistent) (h : f.Reads t) :
    f.declared t.root = .of (t.subtrees.filterMap Tree.declares?) := by
  rw [declared]
  congr 1
  rw [hf.preorder_eq h, Tree.ids, List.filterMap_map]
  refine List.filterMap_congr fun u hu => ?_
  simp only [Function.comp_apply, (h.of_mem_subtrees hu).kind?_eq, Tree.declares?]
  cases u.kind <;> rfl

theorem Reads.declared_eq {i : NodeId} {k : Kind} {cs : List Tree} (hf : f.Consistent)
    (h : f.Reads (.node i k cs)) (hk : k.isMethod) (hcs : ∀ c ∈ cs, c.IsItem True) :
    f.declared i = (Tree.node i k cs).locals := by
  rw [← Tree.locals_eq_of_isMethod hk hcs]
  exact h.declared_eq_of_subtrees hf

/-- The methods are at the same nodes and have the same outcomes. -/
def SameOutcomes (f' f : Forest) : Prop :=
  f'.methods = f.methods ∧
    ∀ m ∈ f.methods, ∀ {ρ ω : Type} (R : Runtime ρ ω), f'.Outcomes R m = f.Outcomes R m

theorem SameOutcomes.refl (f : Forest) : SameOutcomes f f := ⟨rfl, fun _ _ _ _ _ => rfl⟩

theorem SameOutcomes.trans {f'' : Forest} (h : SameOutcomes f'' f') (h' : SameOutcomes f' f) :
    SameOutcomes f'' f :=
  ⟨h.1.trans h'.1, fun m hm _ _ R => (h.2 m (h'.1 ▸ hm) R).trans (h'.2 m hm R)⟩

/-- Programs with the same methods have the same outcomes. -/
theorem sameOutcomes_of_sameMethods (h : f.Carries t) (h' : f'.Carries t')
    (hm : Tree.SameMethods [t'] [t]) : SameOutcomes f' f := by
  rw [Tree.SameMethods, List.flatMap_singleton, List.flatMap_singleton] at hm
  rw [SameOutcomes, h.methods_eq, h'.methods_eq]
  refine ⟨?_, fun m hmem {ρ ω} R => ?_⟩
  · have hroots : List.Forall₂ (· = ·) (t'.methods.map Tree.root) (t.methods.map Tree.root) :=
      List.rel_map (fun _ _ hs => hs.1) hm
    rwa [List.forall₂_eq_eq_eq] at hroots
  · obtain ⟨u, hu, rfl⟩ := List.mem_map.1 hmem
    obtain ⟨u', hu', hroot, hout⟩ := Tree.exists_sameMethod hm hu
    rw [(h.reads.of_mem_subtrees (List.mem_of_mem_filter hu)).outcomes_eq, ← hroot,
      (h'.reads.of_mem_subtrees (List.mem_of_mem_filter hu')).outcomes_eq, hout]

end Forest

end Midend
