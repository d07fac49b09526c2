import Midend.Proofs.Tree.Meaning
import Midend.Proofs.Tree.Shape

/-!
# The locals that a statement changes

A statement changes the locals that are assigned in it, and no others: a field is
in the world, and no operation of the runtime sees the locals. This holds of every
run, however it ends (`Runtime.changesOnly_exec`), so that what is true of the
other locals before a loop is true in each of its iterations.
-/

namespace Midend

namespace Tree

/-- The variables that are assigned in the tree. -/
def assigned (t : Tree) : List String := t.subtrees.filterMap fun u => u.kind.target?

theorem assigned_node (i : NodeId) (k : Kind) (cs : List Tree) :
    (node i k cs).assigned = k.target?.toList ++ cs.flatMap assigned := by
  rw [assigned, subtrees_node, List.filterMap_cons, kind_node, List.filterMap_flatMap]
  cases k.target? <;> rfl

theorem assigned_subset {i : NodeId} {k : Kind} {c : Tree} {cs : List Tree} (hc : c ∈ cs) :
    c.assigned ⊆ (node i k cs).assigned := by
  rw [assigned_node]
  exact fun x hx => List.mem_append_right _ (List.mem_flatMap.2 ⟨c, hc, hx⟩)

end Tree

variable {ρ ω α : Type}

namespace Behavior

/-- No run changes a local but the given ones. -/
def ChangesOnly (names : List String) (b : Behavior ρ ω) : Prop :=
  ∀ s e s', b s e s' → ∀ x ∉ names, s'.locals x = s.locals x

namespace ChangesOnly

variable {names : List String} {a b : Behavior ρ ω}

theorem mono {names' : List String} (h : ChangesOnly names b) (hsub : names ⊆ names') :
    ChangesOnly names' b := fun s e s' hb x hx =>
  h s e s' hb x (mt (@hsub x) hx)

theorem skip : ChangesOnly names (skip : Behavior ρ ω) := by
  rintro s _ _ ⟨rfl, rfl⟩ x -
  rfl

theorem andThen (ha : ChangesOnly names a) (hb : ChangesOnly names b) :
    ChangesOnly names (a.andThen b) := by
  rintro s e s' (⟨s₁, h₁, h₂⟩ | ⟨-, h⟩) x hx
  · rw [hb _ _ _ h₂ x hx, ha _ _ _ h₁ x hx]
  · exact ha _ _ _ h x hx

theorem inOrder {bs : List (Behavior ρ ω)} (h : ∀ b ∈ bs, ChangesOnly names b) :
    ChangesOnly names (inOrder bs) := by
  induction bs with
  | nil => exact skip
  | cons b bs ih =>
    exact andThen (h b List.mem_cons_self) (ih fun b hb => h b (List.mem_cons_of_mem _ hb))

theorem compute {x : Store ρ → Computation ω α} {next : α → Behavior ρ ω}
    (h : ∀ v, ChangesOnly names (next v)) : ChangesOnly names (compute x next) := by
  intro s e s' hs y hy
  unfold Behavior.compute at hs
  split at hs
  · rw [h _ _ _ _ hs y hy]
  · rw [hs.2]

theorem assign {name : String} (hname : name ∈ names) (v : Value ρ) :
    ChangesOnly names (assign name v : Behavior ρ ω) := by
  rintro s _ _ ⟨rfl, rfl⟩ x hx
  exact Function.update_of_ne (ne_of_mem_of_not_mem hname hx).symm _ _

theorem leave (v : Value ρ) : ChangesOnly names (leave v : Behavior ρ ω) := by
  rintro s _ _ ⟨rfl, rfl⟩ x -
  rfl

theorem repeated {test : Store ρ → Computation ω Bool} (h : ChangesOnly names b) :
    ChangesOnly names (repeated test b) := by
  intro s e s' hs x hx
  induction hs with
  | done | stop => rfl
  | again _ hb _ ih => rw [ih, h _ _ _ hb x hx]
  | exit _ hb => exact h _ _ _ hb x hx

end ChangesOnly

end Behavior

namespace Runtime

open Behavior

variable {R : Runtime ρ ω} {L : NameSet} {names : List String}

theorem changesOnly_behavior {k : Kind} {xs : List (Store ρ → Computation ω (Value ρ))}
    {bs : List (Behavior ρ ω)} (hk : ∀ x ∈ k.target?, x ∈ names)
    (hbs : ¬ k.isPlain → ∀ b ∈ bs, ChangesOnly names b) :
    ChangesOnly names (R.behavior L k xs bs) := by
  unfold behavior
  split
  case h_1 => exact .compute fun _ => .skip
  case h_2 => exact .compute .leave
  case h_3 =>
    -- A name that is no local is a field, and is assigned in the world.
    refine .compute fun v => ?_
    split
    · exact .assign (hk _ rfl) v
    · exact .compute fun _ => .skip
  case h_4 => exact .compute fun _ => .skip
  case h_5 => exact .inOrder (hbs (by decide))
  case h_6 a =>
    refine .compute fun c => ?_
    cases c with
    | true => exact hbs (by decide) a (by simp)
    | false => exact .skip
  case h_7 a b =>
    refine .compute fun c => ?_
    cases c with
    | true => exact hbs (by decide) a (by simp)
    | false => exact hbs (by decide) b (by simp)
  case h_8 b => exact .repeated (hbs (by decide) b (by simp))
  case h_9 | h_10 => exact .skip
  case h_11 => exact fun _ _ _ h => h.elim

/-- A statement changes no local but those that are assigned in it. -/
theorem changesOnly_exec (t : Tree) : ChangesOnly t.assigned (R.exec L t) := by
  induction t with
  | node i k cs ih =>
    rw [exec_node]
    refine changesOnly_behavior (fun x hx => ?_) fun _ b hb => ?_
    · rw [Tree.assigned_node]
      exact List.mem_append_left _ (Option.mem_toList.2 hx)
    · obtain ⟨c, hc, rfl⟩ := List.mem_map.1 hb
      exact (ih c hc).mono (Tree.assigned_subset hc)

/-- A plain statement changes no local at all. -/
theorem locals_eq_of_isPlain {i : NodeId} {k : Kind} {cs : List Tree} (hk : k.isPlain)
    {s s' : RunState ρ ω} {e : Exit ρ} (h : R.exec L (.node i k cs) s e s') :
    s'.locals = s.locals := by
  rw [exec_node] at h
  have hchanges : ChangesOnly [] (R.behavior L k (cs.map fun c s => R.eval L s c)
      (cs.map (R.exec L))) := by
    refine changesOnly_behavior (fun x hx => ?_) fun hn => absurd hk hn
    obtain ⟨-, htarget⟩ := Bool.and_eq_true_iff.1 hk
    rw [Option.isNone_iff_eq_none.1 htarget] at hx
    cases hx
  exact funext fun x => hchanges _ _ _ h x List.not_mem_nil

end Runtime

end Midend
