import Midend.Proofs.Constant.Propagation
import Midend.Proofs.Tree.Methods

/-!
# Propagation and the numbers of nodes

What propagation makes of trees depends on their kinds and on the order of their
children, and not on the numbers of their nodes. Trees that differ in their numbers
only are those that are equal when all numbers are erased (`Tree.erase`).

This takes two steps. What the relations say of trees they say of the erased trees
(`Propagates.erase`), and what is left of given trees is the same up to numbers
(`Propagates.unique`). So it is the same for trees that differ in numbers only
(`Propagates.congr`). All this is about propagation that does not stop: errors name
nodes by their numbers.
-/

namespace Midend

namespace Tree

mutual

/-- The tree with all its numbers erased. -/
def erase : Tree → Tree
  | node _ k cs => node 0 k (eraseAll cs)

/-- The trees with all their numbers erased. -/
def eraseAll : List Tree → List Tree
  | [] => []
  | t :: ts => t.erase :: eraseAll ts

end

theorem eraseAll_eq (ts : List Tree) : eraseAll ts = ts.map erase := by
  induction ts with
  | nil => rfl
  | cons t ts ih => rw [eraseAll, ih, List.map_cons]

@[simp] theorem erase_node (i : NodeId) (k : Kind) (cs : List Tree) :
    (node i k cs).erase = node 0 k (cs.map erase) := by
  rw [erase, eraseAll_eq]

@[simp] theorem kind_erase (t : Tree) : t.erase.kind = t.kind := by
  cases t
  rw [erase_node]
  rfl

@[simp] theorem children_erase (t : Tree) : t.erase.children = t.children.map erase := by
  cases t
  rw [erase_node]
  rfl

@[simp] theorem literal?_erase (t : Tree) : t.erase.literal? = t.literal? := by
  rw [literal?, kind_erase, literal?]

theorem literal?_eq_of_erase_eq {t u : Tree} (h : t.erase = u.erase) : t.literal? = u.literal? := by
  rw [← literal?_erase, h, literal?_erase]

theorem erase_erase (t : Tree) : t.erase.erase = t.erase := by
  induction t with
  | node i k cs ih =>
    simp only [erase_node, List.map_map]
    congr 1
    exact List.map_congr_left fun c hc => ih c hc

theorem subtrees_erase (t : Tree) : t.erase.subtrees = t.subtrees.map erase := by
  induction t with
  | node i k cs ih =>
    rw [erase_node, subtrees_node, subtrees_node, List.map_cons, erase_node, List.flatMap_map,
      List.map_flatMap]
    congr 1
    exact List.flatMap_congr fun c hc => ih c hc

/-- What is read off the subtrees does not depend on numbers if that of each one does
    not. -/
theorem filterMap_subtrees_erase {α : Type} {read : Tree → Option α}
    (hread : ∀ u : Tree, read u.erase = read u) (t : Tree) :
    t.erase.subtrees.filterMap read = t.subtrees.filterMap read := by
  rw [subtrees_erase, List.filterMap_map]
  exact List.filterMap_congr fun u _ => hread u

theorem assigned_erase (t : Tree) : t.erase.assigned = t.assigned :=
  filterMap_subtrees_erase (fun u => by rw [kind_erase]) t

theorem declares?_erase (t : Tree) : t.erase.declares? = t.declares? := by
  rw [declares?, kind_erase, declares?]

/-- The methods are the same up to numbers. -/
theorem methods_erase (t : Tree) : t.erase.methods = t.methods.map erase := by
  rw [methods, subtrees_erase, List.filter_map, methods]
  congr 1
  exact List.filter_congr fun u _ => by rw [Function.comp_apply, kind_erase]

theorem map_erase_asBranch (b : Tree) (a : Bool) :
    (b.asBranch a).map erase = b.erase.asBranch a := by
  simp only [asBranch, kind_erase]
  split
  · rw [children_erase]
  · rfl

end Tree

open Midend.Tree (erase)

theorem map_erase_vacant (a : Bool) (i : NodeId) : (vacant a i).map erase = vacant a 0 := by
  cases a <;> simp [vacant]

/-! ## Expressions -/

namespace Substitutes

variable {K : Known} {ts us us' : List Tree} {b b' : Bool}

theorem erase (h : Substitutes K ts us b) :
    Substitutes K (ts.map Tree.erase) (us.map Tree.erase) b := by
  induction h with
  | nil => exact .nil
  | known j hx _ ih =>
    simp only [List.map_cons, Tree.erase_node, List.map_nil]
    exact .known 0 hx ih
  | unknown hx _ ih =>
    simp only [List.map_cons, Tree.erase_node]
    exact .unknown hx ih
  | node hk _ _ ihcs ih =>
    simp only [List.map_cons, Tree.erase_node]
    exact .node hk ihcs ih

theorem erase_one {t u : Tree} (h : Substitutes K [t] [u] b) :
    Substitutes K [t.erase] [u.erase] b :=
  h.erase

theorem unique (h : Substitutes K ts us b) (h' : Substitutes K ts us' b') :
    us.map Tree.erase = us'.map Tree.erase ∧ b = b' := by
  induction h generalizing us' b' with
  | nil =>
    cases h'
    exact ⟨rfl, rfl⟩
  | known j hx _ ih =>
    cases h' with
    | known j' hx' hts =>
      obtain rfl := Option.some.inj (hx.symm.trans hx')
      simp [(ih hts).1]
    | unknown hx' => simp [hx] at hx'
    | node hk => exact absurd rfl (hk _)
  | unknown hx _ ih =>
    cases h' with
    | known j' hx' => simp [hx] at hx'
    | unknown _ hts => simp [ih hts]
    | node hk => exact absurd rfl (hk _)
  | node hk _ _ ihcs ih =>
    cases h' with
    | known | unknown => exact absurd rfl (hk _)
    | node _ hcs hts => simp [ihcs hcs, ih hts]

/-- A single expression that is substituted in twice. -/
theorem unique_one {t u u' : Tree} (h : Substitutes K [t] [u] b) (h' : Substitutes K [t] [u'] b') :
    u.erase = u'.erase ∧ b = b' := by
  simpa using h.unique h'

end Substitutes

/-! ## Statements -/

theorem Known.entering_erase (K : Known) (t : Tree) : K.entering t.erase = K.entering t := by
  rw [entering, Tree.kind_erase, Tree.assigned_erase, entering]

theorem Kind.not_isPlain_of_isVariable {k : Kind} (hk : k.isVariable) : ¬ k.isPlain := by
  simp [isPlain, isCompound, of_decide_eq_true hk]

theorem Kind.not_isControl_of_isVariable {k : Kind} (hk : k.isVariable) : ¬ k.isControl := by
  simp [isControl, of_decide_eq_true hk]

theorem Kind.not_isPlain_of_isControl {k : Kind} (hk : k.isControl) : ¬ k.isPlain := by
  simp [isPlain, isCompound, of_decide_eq_true hk]

theorem eq_ok_of_toOption {α : Type} {r : Except Error α} {x : α} (h : r.toOption = some x) :
    r = .ok x := by
  cases r with
  | error e => cases h
  | ok y => cases h; rfl

theorem exists_error_of_toOption {α : Type} {r : Except Error α} (h : r.toOption = none) :
    ∃ e, r = .error e := by
  cases r with
  | error e => exact ⟨e, rfl⟩
  | ok y => cases h

theorem toOption_map {α β : Type} {r r' : Except Error α} (h : r.toOption = r'.toOption)
    (g : α → β) : (r.map g).toOption = (r'.map g).toOption := by
  cases r <;> cases r' <;> cases h <;> rfl

namespace Propagates

variable {L : NameSet} {a : Bool} {K : Known} {ts us us' : List Tree}
  {r r' : Except Error (Known × Bool)}

/-- What is said of trees is said of the erased trees, the numbers in errors apart. -/
theorem erase (h : Propagates L a K ts us r) : ∃ r₀ : Except Error (Known × Bool),
    Propagates L a K (ts.map Tree.erase) (us.map Tree.erase) r₀ ∧
      r₀.toOption = r.toOption := by
  have hentering : ∀ (K : Known) (i : NodeId) (k : Kind) (cs : List Tree),
      K.entering (.node 0 k (cs.map Tree.erase)) = K.entering (.node i k cs) := fun K i k cs => by
    rw [← Tree.erase_node i, K.entering_erase]
  induction h with
  | nil a K => exact ⟨_, .nil a K, rfl⟩
  | cons _ _ _ iht ihts =>
    obtain ⟨r₁, ht, hr₁⟩ := iht
    obtain ⟨r₂, hts, hr₂⟩ := ihts
    cases eq_ok_of_toOption hr₁
    rw [List.map_cons, List.map_append]
    exact ⟨_, .cons_ok ht hts, toOption_map hr₂ _⟩
  | stop _ _ iht =>
    obtain ⟨r₁, ht, hr₁⟩ := iht
    obtain ⟨e, rfl⟩ := exists_error_of_toOption hr₁
    rw [List.map_cons, List.map_append]
    exact ⟨_, .cons_error ht, rfl⟩
  | declaration a K i cs hk =>
    simp only [List.map_cons, List.map_nil, Tree.erase_node]
    exact ⟨_, .declaration a K 0 _ hk, rfl⟩
  | block _ ih =>
    obtain ⟨r₀, hcs, hr₀⟩ := ih
    simp only [List.map_cons, List.map_nil, Tree.erase_node]
    exact ⟨r₀, .block hcs, hr₀⟩
  | plain hk hcs =>
    simp only [List.map_cons, List.map_nil, Tree.erase_node]
    exact ⟨_, .plain hk hcs.erase, rfl⟩
  | noValue a K i x =>
    simp only [List.map_cons, List.map_nil, Tree.erase_node]
    exact ⟨_, .noValue a K 0 x, rfl⟩
  | assignment hu =>
    simp only [List.map_cons, List.map_nil, Tree.erase_node]
    rw [← Tree.literal?_erase]
    exact ⟨_, .assignment hu.erase_one, rfl⟩
  | noTest a K i hk =>
    simp only [List.map_cons, List.map_nil, Tree.erase_node]
    exact ⟨_, .noTest a K 0 hk, rfl⟩
  | @integerTest a b K i k t u cs v hk hu hl =>
    rw [← hentering] at hu
    simp only [List.map_cons, List.map_nil, Tree.erase_node] at hu ⊢
    exact ⟨_, .integerTest hk hu.erase_one (by simpa using hl), rfl⟩
  | @settledVacant a b c K i t u cs j hu hl hnone =>
    have hnone' : (u.erase :: cs.map Tree.erase)[branchIndex c]? = none := by
      rw [← List.map_cons, List.getElem?_map, hnone]
      rfl
    simp only [List.map_cons, List.map_nil, Tree.erase_node, map_erase_vacant]
    exact ⟨_, .settledVacant 0 hu.erase_one (by simpa using hl) hnone', rfl⟩
  | settledInside hu hl hlen _ ih =>
    obtain ⟨r₀, hs, hr₀⟩ := ih
    obtain ⟨e, rfl⟩ := exists_error_of_toOption hr₀
    simp only [List.map_cons, List.map_nil, List.map_append, Tree.erase_node]
    exact ⟨_, .settledInside hu.erase_one (by simpa using hl) (by simpa using hlen) hs, rfl⟩
  | settled hu hl hlen _ ih =>
    obtain ⟨r₀, hs, hr₀⟩ := ih
    cases eq_ok_of_toOption hr₀
    simp only [List.map_cons, List.map_nil, List.map_append, Tree.erase_node,
      Tree.map_erase_asBranch]
    exact ⟨_, .settled hu.erase_one (by simpa using hl) (by simpa using hlen) hs, rfl⟩
  | noBranch hu hl =>
    simp only [List.map_cons, List.map_nil, Tree.erase_node]
    exact ⟨_, .noBranch hu.erase_one (by simpa using hl), rfl⟩
  | one hu hl _ ih =>
    obtain ⟨r₀, hs, hr₀⟩ := ih
    simp only [List.map_cons, List.map_nil, Tree.erase_node]
    exact ⟨_, .one hu.erase_one (by simpa using hl) hs, toOption_map hr₀ _⟩
  | firstInside hu hl hcs _ ih =>
    obtain ⟨r₀, hs, hr₀⟩ := ih
    obtain ⟨e, rfl⟩ := exists_error_of_toOption hr₀
    simp only [List.map_cons, List.map_nil, List.map_append, Tree.erase_node]
    exact ⟨_, .firstInside hu.erase_one (by simpa using hl) (by simpa using hcs) hs, rfl⟩
  | two hu hl _ _ ih ih' =>
    obtain ⟨r₁, hs, hr₁⟩ := ih
    obtain ⟨r₂, hs', hr₂⟩ := ih'
    cases eq_ok_of_toOption hr₁
    simp only [List.map_cons, List.map_nil, List.map_append, Tree.erase_node]
    exact ⟨_, .two hu.erase_one (by simpa using hl) hs hs', toOption_map hr₂ _⟩
  | @skip a b K i t u cs j hu hl =>
    rw [← hentering _ i] at hu ⊢
    simp only [List.map_cons, List.map_nil, Tree.erase_node, map_erase_vacant] at hu ⊢
    exact ⟨_, .skip 0 hu.erase_one (by simpa using hl), rfl⟩
  | @noBody a b K i t u hu hl =>
    rw [← hentering] at hu
    simp only [List.map_cons, List.map_nil, Tree.erase_node] at hu ⊢
    exact ⟨_, .noBody hu.erase_one (by simpa using hl), rfl⟩
  | @loop a b K i t u s cs vs r hu hl _ ih =>
    obtain ⟨r₀, hs, hr₀⟩ := ih
    rw [← hentering _ i] at hu hs ⊢
    simp only [List.map_cons, List.map_nil, List.map_append, Tree.erase_node] at hu hs ⊢
    exact ⟨_, .loop hu.erase_one (by simpa using hl) hs, toOption_map hr₀ _⟩

/-- After its test, a conditional goes to the branch that is taken, or through its
    branches. -/
theorem conditional_cases {i : NodeId} {t : Tree} {cs : List Tree}
    (h : Propagates L a K [.node i .conditional (t :: cs)] us r) :
    ∃ u b, Substitutes K [t] [u] b ∧ match u.literal? with
      | some (.int v) => r = .error (.malformed (.integerCondition Kind.conditional.label i v))
      | some (.bool c) => match (u :: cs)[branchIndex c]? with
        | none => r = .ok (K, true) ∧ ∃ j, us = vacant a j
        | some s => ∃ vs r₁, Propagates L false K [s] vs r₁ ∧
          r = r₁.map (fun (K₁, _) => (K₁, true)) ∧
          ∀ x, r₁ = .ok x → us = vs.flatMap (·.asBranch a)
      | none => match cs with
        | [] => r = .error (.malformed (.missingChild Kind.conditional.label i 1))
        | [s] => ∃ vs r₁, Propagates L false K [s] vs r₁ ∧
          r = r₁.map (fun (K₁, b₁) => (K₁.meet K, b || b₁ || false)) ∧
          us = [.node i .conditional (u :: vs)]
        | s :: s' :: cs => ∃ vs r₁, Propagates L false K [s] vs r₁ ∧
          match r₁ with
          | .error e => r = .error e
          | .ok (K₁, b₁) => ∃ ws r₂, Propagates L false K [s'] ws r₂ ∧
            r = r₂.map (fun (K₂, b₂) => (K₁.meet K₂, b || b₁ || b₂)) ∧
            us = [.node i .conditional (u :: (vs ++ (ws ++ cs)))] := by
  cases h with
  | cons hts | stop hts => exact absurd rfl hts
  | declaration _ _ _ _ hk | plain hk => cases hk
  | integerTest _ hu hl =>
    refine ⟨_, _, hu, ?_⟩
    simp only [hl]
  | settledVacant j hu hl hnone =>
    refine ⟨_, _, hu, ?_⟩
    simp only [hl, hnone]
    exact ⟨trivial, j, rfl⟩
  | @settledInside _ b c _ _ _ u s l r vs e hu hl hlen hs =>
    have hbranch : (u :: (l ++ s :: r))[branchIndex c]? = some s := by simp [← hlen]
    refine ⟨_, _, hu, ?_⟩
    simp only [hl, hbranch]
    exact ⟨_, _, hs, rfl, nofun⟩
  | @settled _ b b₁ c _ K₁ _ _ u s v l r hu hl hlen hs =>
    have hbranch : (u :: (l ++ s :: r))[branchIndex c]? = some s := by simp [← hlen]
    refine ⟨_, _, hu, ?_⟩
    simp only [hl, hbranch]
    exact ⟨_, _, hs, rfl, fun _ _ => (List.flatMap_singleton _ _).symm⟩
  | noBranch hu hl =>
    refine ⟨_, _, hu, ?_⟩
    simp only [hl]
  | one hu hl hs =>
    refine ⟨_, _, hu, ?_⟩
    simp only [hl]
    exact ⟨_, _, hs, rfl, rfl⟩
  | @firstInside _ b _ _ _ u s cs vs e hu hl hcs hs =>
    refine ⟨_, _, hu, ?_⟩
    simp only [hl]
    cases cs with
    | nil => exact absurd rfl hcs
    | cons => exact ⟨_, _, hs, rfl⟩
  | two hu hl hs hs' =>
    refine ⟨_, _, hu, ?_⟩
    simp only [hl]
    exact ⟨_, _, hs, _, _, hs', rfl, rfl⟩

/-- After its test, a loop is left out or goes through its body. -/
theorem loop_cases {i : NodeId} {t : Tree} {cs : List Tree}
    (h : Propagates L a K [.node i .loop (t :: cs)] us r) :
    ∃ u b, Substitutes (K.entering (.node i .loop (t :: cs))) [t] [u] b ∧ match u.literal? with
      | some (.int v) => r = .error (.malformed (.integerCondition Kind.loop.label i v))
      | some (.bool false) =>
        r = .ok (K.entering (.node i .loop (t :: cs)), true) ∧ ∃ j, us = vacant a j
      | _ => match cs with
        | [] => r = .error (.malformed (.missingChild Kind.loop.label i 1))
        | s :: ds => ∃ vs r₁,
          Propagates L false (K.entering (.node i .loop (t :: cs))) [s] vs r₁ ∧
          r = r₁.map (fun (_, b₁) => (K.entering (.node i .loop (t :: cs)), b || b₁)) ∧
          us = [.node i .loop (u :: (vs ++ ds))] := by
  cases h with
  | cons hts | stop hts => exact absurd rfl hts
  | declaration _ _ _ _ hk | plain hk => cases hk
  | integerTest _ hu hl =>
    refine ⟨_, _, hu, ?_⟩
    simp only [hl]
  | skip j hu hl =>
    refine ⟨_, _, hu, ?_⟩
    simp only [hl]
    exact ⟨trivial, j, rfl⟩
  | noBody hu hl =>
    refine ⟨_, _, hu, ?_⟩
    rcases hl with hl | hl <;> simp only [hl]
  | loop hu hl hs =>
    refine ⟨_, _, hu, ?_⟩
    rcases hl with hl | hl <;> simp only [hl] <;> exact ⟨_, _, hs, rfl, rfl⟩

/-- Propagation that does not stop once does not stop another time, and leaves the same up
    to numbers. -/
theorem unique (h : Propagates L a K ts us r) (h' : Propagates L a K ts us' r')
    {x : Known × Bool} (hr : r = .ok x) :
    us.map Tree.erase = us'.map Tree.erase ∧ r' = .ok x := by
  induction h generalizing us' r' x with
  | nil a K =>
    cases h'
    exact ⟨rfl, hr⟩
  | cons hts _ _ iht ihts =>
    obtain ⟨y, rfl, rfl⟩ := exists_of_map_eq_ok hr
    cases h' with
    | cons _ ht hrest =>
      obtain ⟨hus, hx⟩ := iht ht rfl
      cases hx
      obtain ⟨hvs, rfl⟩ := ihts hrest rfl
      exact ⟨by rw [List.map_append, List.map_append, hus, hvs], rfl⟩
    | stop _ ht => cases (iht ht rfl).2
    | _ => exact absurd rfl hts
  | declaration a K i cs hk =>
    cases h' with
    | cons hts | stop hts => exact absurd rfl hts
    | declaration => exact ⟨rfl, hr⟩
    | plain hk' => exact absurd hk' (Kind.not_isPlain_of_isVariable hk)
    | noTest _ _ _ hc | integerTest hc => exact absurd hc (Kind.not_isControl_of_isVariable hk)
    | _ => cases hk
  | block _ ih =>
    cases h' with
    | cons hts | stop hts => exact absurd rfl hts
    | declaration _ _ _ _ hk | plain hk | noTest _ _ _ hk | integerTest hk => cases hk
    | block hcs =>
      obtain ⟨hds, rfl⟩ := ih hcs hr
      exact ⟨by simp [hds], rfl⟩
  | plain hk hcs =>
    cases h' with
    | cons hts | stop hts => exact absurd rfl hts
    | declaration _ _ _ _ hk' => exact absurd hk (Kind.not_isPlain_of_isVariable hk')
    | plain _ hcs' =>
      obtain ⟨hds, rfl⟩ := hcs.unique hcs'
      exact ⟨by simp [hds], hr⟩
    | noTest _ _ _ hc | integerTest hc => exact absurd hk (Kind.not_isPlain_of_isControl hc)
    | _ => cases hk
  | assignment hu =>
    cases h' with
    | cons hts | stop hts => exact absurd rfl hts
    | declaration _ _ _ _ hk | plain hk | integerTest hk => cases hk
    | assignment hu' =>
      obtain ⟨hds, rfl⟩ := hu.unique_one hu'
      rw [← Tree.literal?_eq_of_erase_eq hds]
      exact ⟨by simp [hds], hr⟩
  | @settledVacant a b c K i t u cs j hu hl hnone =>
    obtain ⟨u', b', hu', hcase⟩ := h'.conditional_cases
    obtain ⟨hsame, rfl⟩ := hu.unique_one hu'
    have hnone' : (u' :: cs)[branchIndex c]? = none := by cases c <;> exact hnone
    simp only [← Tree.literal?_eq_of_erase_eq hsame, hl, hnone'] at hcase
    obtain ⟨rfl, j', rfl⟩ := hcase
    exact ⟨by rw [map_erase_vacant, map_erase_vacant], hr⟩
  | @settled a b b₁ c K K₁ i t u s v l r hu hl hlen _ ih =>
    obtain ⟨u', b', hu', hcase⟩ := h'.conditional_cases
    obtain ⟨hsame, rfl⟩ := hu.unique_one hu'
    have hbranch : (u' :: (l ++ s :: r))[branchIndex c]? = some s := by
      rw [← hlen]
      simp
    simp only [← Tree.literal?_eq_of_erase_eq hsame, hl, hbranch] at hcase
    obtain ⟨vs, r₁, hs', rfl, hus⟩ := hcase
    obtain ⟨hvs, rfl⟩ := ih hs' rfl
    obtain ⟨v', rfl⟩ := hs'.exists_eq
    have hv : v.erase = v'.erase := by simpa using hvs
    refine ⟨?_, hr⟩
    rw [hus _ rfl, List.flatMap_singleton, Tree.map_erase_asBranch, Tree.map_erase_asBranch, hv]
  | one hu hl _ ih =>
    obtain ⟨y, rfl, rfl⟩ := exists_of_map_eq_ok hr
    obtain ⟨u', b', hu', hcase⟩ := h'.conditional_cases
    obtain ⟨hsame, rfl⟩ := hu.unique_one hu'
    simp only [← Tree.literal?_eq_of_erase_eq hsame, hl] at hcase
    obtain ⟨vs, r₁, hs', rfl, rfl⟩ := hcase
    obtain ⟨hvs, rfl⟩ := ih hs' rfl
    exact ⟨by simp [hsame, hvs], rfl⟩
  | two hu hl _ _ ih ih' =>
    obtain ⟨y, rfl, rfl⟩ := exists_of_map_eq_ok hr
    obtain ⟨u', b', hu', hcase⟩ := h'.conditional_cases
    obtain ⟨hsame, rfl⟩ := hu.unique_one hu'
    simp only [← Tree.literal?_eq_of_erase_eq hsame, hl] at hcase
    obtain ⟨vs, r₁, hs, hcase⟩ := hcase
    obtain ⟨hvs, rfl⟩ := ih hs rfl
    obtain ⟨ws, r₂, hs', rfl, rfl⟩ := hcase
    obtain ⟨hws, rfl⟩ := ih' hs' rfl
    exact ⟨by simp [hsame, ← hvs, hws], rfl⟩
  | skip j hu hl =>
    obtain ⟨u', b', hu', hcase⟩ := h'.loop_cases
    obtain ⟨hsame, rfl⟩ := hu.unique_one hu'
    simp only [← Tree.literal?_eq_of_erase_eq hsame, hl] at hcase
    obtain ⟨rfl, j', rfl⟩ := hcase
    exact ⟨by rw [map_erase_vacant, map_erase_vacant], hr⟩
  | loop hu hl _ ih =>
    obtain ⟨y, rfl, rfl⟩ := exists_of_map_eq_ok hr
    obtain ⟨u', b', hu', hcase⟩ := h'.loop_cases
    obtain ⟨hsame, rfl⟩ := hu.unique_one hu'
    rw [← Tree.literal?_eq_of_erase_eq hsame] at hcase
    rcases hl with hl | hl <;> simp only [hl] at hcase
    all_goals
      obtain ⟨vs, r₁, hs', rfl, rfl⟩ := hcase
      obtain ⟨hvs, rfl⟩ := ih hs' rfl
      exact ⟨by simp [hsame, hvs], rfl⟩
  | _ => cases hr

/-- Trees that differ in numbers only are treated alike. -/
theorem congr {ts' : List Tree} {x : Known × Bool} (h : Propagates L a K ts us (.ok x))
    (h' : Propagates L a K ts' us' r') (hts : ts.map Tree.erase = ts'.map Tree.erase) :
    us.map Tree.erase = us'.map Tree.erase ∧ r' = .ok x := by
  have hidem : ∀ us : List Tree, (us.map Tree.erase).map Tree.erase = us.map Tree.erase := by
    simp [Function.comp_def, Tree.erase_erase]
  obtain ⟨r₀, h₀, hr₀⟩ := h.erase
  obtain ⟨r₁, h₁, hr₁⟩ := h'.erase
  obtain ⟨hus, rfl⟩ := h₀.unique (hts ▸ h₁) (eq_ok_of_toOption hr₀)
  rw [hidem, hidem] at hus
  exact ⟨hus, eq_ok_of_toOption hr₁.symm⟩

end Propagates

end Midend
