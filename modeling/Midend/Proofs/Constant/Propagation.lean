import Midend.Constant.Propagation
import Midend.Proofs.Constant.Reduction
import Midend.Proofs.Tree.Frame
import Midend.Proofs.Tree.Shape

/-!
# What propagation does to a tree

Propagation as relations between the trees that are visited, the trees that are in
their place afterwards, and the result. In expressions the known variables are
replaced (`Substitutes`). Statements are gone through in order (`Propagates`), from
what is known before them to what is known after them.

* `Edit.substitutesTree_substitute`, `Edit.propagatesTree_propagateWithin`: the
  visit of a tree does to it what the relations say, wherever it stands.
* `Edit.ensures_propagateAlone`: so propagation goes through the children of a
  method.
* `Edit.propagateProgram_eq`: the pass goes through each method as if alone, since
  what is known after one is cleared before the next.
-/

namespace Midend

/-- In the trees, the known variables are replaced by their values. -/
inductive Substitutes (K : Known) : List Tree → List Tree → Bool → Prop
  | nil : Substitutes K [] [] false
  | known {i : NodeId} {x : String} {l : Literal} {cs ts us : List Tree} {b : Bool} (j : NodeId) :
    K[x]? = some l → Substitutes K ts us b →
    Substitutes K (.node i (.identifier x) cs :: ts) (.node j (.ofLiteral l) [] :: us) true
  | unknown {i : NodeId} {x : String} {cs ts us : List Tree} {b : Bool} :
    K[x]? = none → Substitutes K ts us b →
    Substitutes K (.node i (.identifier x) cs :: ts) (.node i (.identifier x) cs :: us) b
  | node {i : NodeId} {k : Kind} {cs ds ts us : List Tree} {b c : Bool} :
    (∀ x, k ≠ .identifier x) → Substitutes K cs ds b → Substitutes K ts us c →
    Substitutes K (.node i k cs :: ts) (.node i k ds :: us) (b || c)

namespace Substitutes

variable {K : Known} {t : Tree} {ts us vs : List Tree} {b c : Bool}

theorem length_eq (h : Substitutes K ts us b) : us.length = ts.length := by
  induction h with
  | nil => rfl
  | known _ _ _ ih | unknown _ _ ih | node _ _ _ _ ih => rw [List.length_cons, ih, List.length_cons]

theorem exists_eq (h : Substitutes K [t] us b) : ∃ u, us = [u] :=
  List.length_eq_one_iff.1 h.length_eq

theorem append (ht : Substitutes K [t] us b) (hts : Substitutes K ts vs c) :
    Substitutes K (t :: ts) (us ++ vs) (b || c) := by
  cases ht with
  | known j hx hnil =>
    cases hnil
    exact .known j hx hts
  | unknown hx hnil =>
    cases hnil
    exact .unknown hx hts
  | node hk hcs hnil =>
    cases hnil
    rw [Bool.or_false]
    exact .node hk hcs hts

end Substitutes

namespace Edit

/-- The known variables of a tree are replaced. -/
def SubstitutesTree (visit : NodeId → Edit Bool) (K : Known) (t : Tree) : Prop :=
  ∀ a, Visits visit a (fun ts us r => ∃ b, r = .ok b ∧ Substitutes K ts us b) t

theorem sequential_substitutes (K : Known) :
    Sequential fun ts us r => ∃ b, r = .ok b ∧ Substitutes K ts us b where
  nil := ⟨false, rfl, .nil⟩
  cons := by
    rintro t ts us vs b r ⟨_, h, hus⟩ ⟨c, rfl, hvs⟩
    cases h
    exact ⟨b || c, rfl, hus.append hvs⟩
  stop := by
    rintro t ts us e ⟨_, h, -⟩
    cases h

/-- An expression is substituted in down to a depth that it does not exceed. -/
theorem substitutesTree_substitute (K : Known) (depth : Nat) (t : Tree)
    (hd : t.ids.length ≤ depth) : SubstitutesTree (substitute K depth) K t := by
  induction depth generalizing t with
  | zero => exact absurd hd (Nat.not_le.2 t.length_ids_pos)
  | succ depth ih =>
    obtain ⟨i, k, cs⟩ := t
    have hvisit : ∀ t ∈ cs, SubstitutesTree (substitute K depth) K t := by
      intro t ht
      have hle := Tree.length_ids_le ht
      rw [Tree.ids_node, List.length_cons] at hd
      exact ih t (by omega)
    rintro _ f₀ p f C rfl h
    have hplace : Place C.amongStatements fun g ts => Reduces f₀ p g (C.plug ts) :=
      place_context rfl
    have hr := hplace.reads h
    have hk : f.kind? i = some k := hr.kind?_eq
    change Ensures (substitute K (depth + 1) i) f _
    rw [substitute, ensures_bind, ensures_get]
    simp only [hk]
    split
    next x heq =>
      cases heq
      cases hx : K[x]? with
      | none => exact ⟨_, ⟨false, rfl, .unknown hx .nil⟩, h⟩
      | some l =>
        have hweight := Tree.one_lt_weight_identifier i x cs
        refine (hplace.replaceByLeaf h hweight (.inr ⟨l, rfl⟩)).bind ?_ ?_
        · rintro _ f₁ ⟨-, h₁⟩
          exact ⟨_, ⟨true, rfl, .known _ hx .nil⟩, h₁⟩
        · rintro e f₁ ⟨he, -⟩
          cases he
    next hne =>
      have hident : ∀ x, k ≠ .identifier x := by
        rintro x rfl
        exact hne x rfl
      have hchildren : Reduces f₀ p f ((C.down i k).plug cs) := by simpa using h
      rw [show f.children i = cs.map Tree.root from hr.children_eq]
      refine (ensures_visitAll (sequential_substitutes K) (fun t ht => hvisit t ht _) rfl
        hchildren).mono ?_
      rintro _ f₁ ⟨ds, ⟨b, rfl, hds⟩, h₁⟩
      exact ⟨_, ⟨b, rfl, by simpa using Substitutes.node hident hds .nil⟩, by simpa using h₁⟩

end Edit

/-! ## Statements -/

/-- What is known after an assignment of a literal, or of anything else. -/
def Known.assign (K : Known) (L : NameSet) (x : String) (l : Option Literal) : Known :=
  if x ∈ L then
    match l with
    | some l => K.insert x l
    | none => K.erase x
  else K

/-- What is known within a conditional or a loop. A loop may assign before its test
    and its body are reached again. -/
def Known.entering (K : Known) (t : Tree) : Known :=
  if t.kind = .loop then K.forget t.assigned else K

/-- Propagation through statements, from what is known before them. The result is
    what is known after them and whether anything changed. -/
inductive Propagates (L : NameSet) :
    Bool → Known → List Tree → List Tree → Except Error (Known × Bool) → Prop
  | nil (a : Bool) (K : Known) : Propagates L a K [] [] (.ok (K, false))
  | cons {a b : Bool} {K K₁ : Known} {t : Tree} {ts us vs : List Tree}
    {r : Except Error (Known × Bool)} :
    ts ≠ [] → Propagates L a K [t] us (.ok (K₁, b)) → Propagates L a K₁ ts vs r →
    Propagates L a K (t :: ts) (us ++ vs) (r.map fun (K₂, c) => (K₂, b || c))
  | stop {a : Bool} {K : Known} {t : Tree} {ts us : List Tree} {e : Error} :
    ts ≠ [] → Propagates L a K [t] us (.error e) → Propagates L a K (t :: ts) (us ++ ts) (.error e)
  | declaration (a : Bool) (K : Known) (i : NodeId) {k : Kind} (cs : List Tree) :
    k.isVariable → Propagates L a K [.node i k cs] [.node i k cs] (.ok (K, false))
  | block {a : Bool} {K : Known} {i : NodeId} {cs ds : List Tree}
    {r : Except Error (Known × Bool)} :
    Propagates L true K cs ds r → Propagates L a K [.node i .block cs] [.node i .block ds] r
  -- Of the statements that are made of expressions only assignments change what is known.
  | plain {a b : Bool} {K : Known} {i : NodeId} {k : Kind} {cs ds : List Tree} :
    k.isPlain → Substitutes K cs ds b →
    Propagates L a K [.node i k cs] [.node i k ds] (.ok (K, b))
  | noValue (a : Bool) (K : Known) (i : NodeId) (x : String) :
    Propagates L a K [.node i (.assignment x) []] [.node i (.assignment x) []]
      (.error (.malformed (.missingChild (Kind.assignment x).label i 0)))
  | assignment {a b : Bool} {K : Known} {i : NodeId} {x : String} {t u : Tree} {cs : List Tree} :
    Substitutes K [t] [u] b →
    Propagates L a K [.node i (.assignment x) (t :: cs)] [.node i (.assignment x) (u :: cs)]
      (.ok (K.assign L x u.literal?, b))
  -- A conditional or a loop needs a test that is no integer.
  | noTest (a : Bool) (K : Known) (i : NodeId) {k : Kind} :
    k.isControl → Propagates L a K [.node i k []] [.node i k []]
      (.error (.malformed (.missingChild k.label i 0)))
  | integerTest {a b : Bool} {K : Known} {i : NodeId} {k : Kind} {t u : Tree} {cs : List Tree}
    {v : Int32} :
    k.isControl → Substitutes (K.entering (.node i k (t :: cs))) [t] [u] b →
    u.literal? = some (.int v) →
    Propagates L a K [.node i k (t :: cs)] [.node i k (u :: cs)]
      (.error (.malformed (.integerCondition k.label i v)))
  -- A conditional with a settled test is left for the branch that is taken.
  | settledVacant {a b c : Bool} {K : Known} {i : NodeId} {t u : Tree} {cs : List Tree}
    (j : NodeId) :
    Substitutes K [t] [u] b → u.literal? = some (.bool c) → (u :: cs)[branchIndex c]? = none →
    Propagates L a K [.node i .conditional (t :: cs)] (vacant a j) (.ok (K, true))
  | settledInside {a b c : Bool} {K : Known} {i : NodeId} {t u s : Tree} {l r vs : List Tree}
    {e : Error} :
    Substitutes K [t] [u] b → u.literal? = some (.bool c) → (u :: l).length = branchIndex c →
    Propagates L false K [s] vs (.error e) →
    Propagates L a K [.node i .conditional (t :: (l ++ s :: r))]
      [.node i .conditional (u :: (l ++ vs ++ r))] (.error e)
  | settled {a b b₁ c : Bool} {K K₁ : Known} {i : NodeId} {t u s v : Tree} {l r : List Tree} :
    Substitutes K [t] [u] b → u.literal? = some (.bool c) → (u :: l).length = branchIndex c →
    Propagates L false K [s] [v] (.ok (K₁, b₁)) →
    Propagates L a K [.node i .conditional (t :: (l ++ s :: r))] (v.asBranch a) (.ok (K₁, true))
  -- Any other conditional has one branch or two, which are gone through separately.
  | noBranch {a b : Bool} {K : Known} {i : NodeId} {t u : Tree} :
    Substitutes K [t] [u] b → u.literal? = none →
    Propagates L a K [.node i .conditional [t]] [.node i .conditional [u]]
      (.error (.malformed (.missingChild Kind.conditional.label i 1)))
  | one {a b : Bool} {K : Known} {i : NodeId} {t u s : Tree} {vs : List Tree}
    {r : Except Error (Known × Bool)} :
    Substitutes K [t] [u] b → u.literal? = none → Propagates L false K [s] vs r →
    Propagates L a K [.node i .conditional [t, s]] [.node i .conditional (u :: vs)]
      (r.map fun (K₁, b₁) => (K₁.meet K, b || b₁ || false))
  | firstInside {a b : Bool} {K : Known} {i : NodeId} {t u s : Tree} {cs vs : List Tree}
    {e : Error} :
    Substitutes K [t] [u] b → u.literal? = none → cs ≠ [] →
    Propagates L false K [s] vs (.error e) →
    Propagates L a K [.node i .conditional (t :: s :: cs)]
      [.node i .conditional (u :: (vs ++ cs))] (.error e)
  | two {a b b₁ : Bool} {K K₁ : Known} {i : NodeId} {t u s s' v : Tree} {cs vs : List Tree}
    {r : Except Error (Known × Bool)} :
    Substitutes K [t] [u] b → u.literal? = none → Propagates L false K [s] [v] (.ok (K₁, b₁)) →
    Propagates L false K [s'] vs r →
    Propagates L a K [.node i .conditional (t :: s :: s' :: cs)]
      [.node i .conditional (u :: v :: (vs ++ cs))]
      (r.map fun (K₂, b₂) => (K₁.meet K₂, b || b₁ || b₂))
  -- A loop that is never entered is left out, and any other one kept.
  | skip {a b : Bool} {K : Known} {i : NodeId} {t u : Tree} {cs : List Tree} (j : NodeId) :
    Substitutes (K.entering (.node i .loop (t :: cs))) [t] [u] b →
    u.literal? = some (.bool false) →
    Propagates L a K [.node i .loop (t :: cs)] (vacant a j)
      (.ok (K.entering (.node i .loop (t :: cs)), true))
  | noBody {a b : Bool} {K : Known} {i : NodeId} {t u : Tree} :
    Substitutes (K.entering (.node i .loop [t])) [t] [u] b →
    u.literal? = none ∨ u.literal? = some (.bool true) →
    Propagates L a K [.node i .loop [t]] [.node i .loop [u]]
      (.error (.malformed (.missingChild Kind.loop.label i 1)))
  | loop {a b : Bool} {K : Known} {i : NodeId} {t u s : Tree} {cs vs : List Tree}
    {r : Except Error (Known × Bool)} :
    Substitutes (K.entering (.node i .loop (t :: s :: cs))) [t] [u] b →
    u.literal? = none ∨ u.literal? = some (.bool true) →
    Propagates L false (K.entering (.node i .loop (t :: s :: cs))) [s] vs r →
    Propagates L a K [.node i .loop (t :: s :: cs)] [.node i .loop (u :: (vs ++ cs))]
      (r.map fun (_, b₁) => (K.entering (.node i .loop (t :: s :: cs)), b || b₁))

namespace Propagates

variable {L : NameSet} {a b : Bool} {K K₁ : Known} {t : Tree} {ts us vs : List Tree}
  {r : Except Error (Known × Bool)}

theorem eq_nil (h : Propagates L a K [] us r) : us = [] ∧ r = .ok (K, false) := by
  cases h
  exact ⟨rfl, rfl⟩

theorem cons_ok (ht : Propagates L a K [t] us (.ok (K₁, b))) (hts : Propagates L a K₁ ts vs r) :
    Propagates L a K (t :: ts) (us ++ vs) (r.map fun (K₂, c) => (K₂, b || c)) := by
  cases ts with
  | nil =>
    obtain ⟨rfl, rfl⟩ := hts.eq_nil
    simpa [Except.map] using ht
  | cons => exact .cons (List.cons_ne_nil _ _) ht hts

theorem cons_error {e : Error} (ht : Propagates L a K [t] us (.error e)) :
    Propagates L a K (t :: ts) (us ++ ts) (.error e) := by
  cases ts with
  | nil => simpa using ht
  | cons => exact .stop (List.cons_ne_nil _ _) ht

/-- Outside of lists of statements, each tree gives way to one tree. -/
theorem length_eq (h : Propagates L a K ts us r) (ha : a = false) : us.length = ts.length := by
  induction h with
  | nil => rfl
  | cons _ _ _ ih ih' => simp [ih ha, ih' ha, Nat.add_comm]
  | stop _ _ ih => simp [ih ha, Nat.add_comm]
  | settledVacant | skip => simp [vacant, ha]
  | settled => simp [Tree.asBranch, ha]
  | _ => rfl

theorem exists_eq (h : Propagates L false K [t] us r) : ∃ u, us = [u] :=
  List.length_eq_one_iff.1 (h.length_eq rfl)

end Propagates

theorem Forest.Reads.assigned_eq {f : Forest} {t : Tree} (hf : f.Consistent) (h : f.Reads t) :
    f.assigned t.root = t.assigned := by
  rw [Forest.assigned, hf.preorder_eq h, Tree.ids, List.filterMap_map, Tree.assigned]
  refine List.filterMap_congr fun u hu => ?_
  simp only [Function.comp_apply, (h.of_mem_subtrees hu).kind?_eq]
  cases u.kind <;> rfl

namespace Edit

/-- The visit of a statement propagates through it, wherever it stands and whatever
    is known before it. -/
def PropagatesTree (visit : Known → NodeId → Edit (Known × Bool)) (L : NameSet) (t : Tree) : Prop :=
  ∀ a K, Visits (visit K) a (Propagates L a K) t

variable {expr : Known → NodeId → Edit Bool} {visit : Known → NodeId → Edit (Known × Bool)}
  {L : NameSet} {K : Known} {f₀ f : Forest} {p : Tree} {C : Context} {i : NodeId}

/-- Statements are visited one after the other. -/
theorem ensures_inOrder {ts : List Tree} (hvisit : ∀ t ∈ ts, PropagatesTree visit L t)
    (h : Reduces f₀ p f (C.plug ts)) :
    Ensures (inOrder visit K (ts.map Tree.root)) f fun r f' =>
      ∃ us, Propagates L C.amongStatements K ts us r ∧ Reduces f₀ p f' (C.plug us) := by
  induction ts generalizing f C K with
  | nil => exact ⟨[], .nil _ K, h⟩
  | cons t ts ih =>
    have ht : Reduces f₀ p f ((C.beforeTrees ts).plug [t]) := by simpa using h
    rw [List.map_cons, inOrder]
    refine (hvisit t List.mem_cons_self _ K rfl ht).bind ?_ ?_
    · rintro ⟨K₁, b⟩ f₁ ⟨us, hus, h₁⟩
      have hts : Reduces f₀ p f₁ ((C.afterTrees us).plug ts) := by simpa using h₁
      refine (ih (C := C.afterTrees us) (fun t ht => hvisit t (List.mem_cons_of_mem _ ht))
        hts).bind ?_ ?_
      · rintro ⟨K₂, c⟩ f₂ ⟨vs, hvs, h₂⟩
        exact ⟨_, .cons_ok hus hvs, by simpa using h₂⟩
      · rintro e f₂ ⟨vs, hvs, h₂⟩
        exact ⟨_, .cons_ok hus hvs, by simpa using h₂⟩
    · rintro e f₁ ⟨us, hus, h₁⟩
      exact ⟨_, .cons_error hus, by simpa using h₁⟩

/-- After its expression, an assignment makes its variable known or unknown. -/
theorem ensures_assign {x : String} {u : Tree} {cs : List Tree} {b : Bool}
    {post : Except Error (Known × Bool) → Forest → Prop}
    (hr : f.Reads (.node i (.assignment x) (u :: cs)))
    (h : post (.ok (K.assign L x u.literal?, b)) f) :
    Ensures (do
      if x ∈ L then
        let value ← ask (·.child i 0)
        match (← get).literal? value with
        | some l => return (K.insert x l, b)
        | none => return (K.erase x, b)
      else
        return (K, b)) f post := by
  have hu : f.literal? u.root = u.literal? := (hr.of_mem_children List.mem_cons_self).literal?_eq
  by_cases hx : x ∈ L
  · simp only [Known.assign, if_pos hx] at h
    rw [if_pos hx, ensures_bind, ensures_ask, hr.child_eq]
    change Ensures (get >>= _) f post
    rw [ensures_bind, ensures_get]
    simp only [hu]
    cases hl : u.literal? <;> simpa [hl] using h
  · simpa [Known.assign, hx] using h

/-- Propagation goes through an assignment, given that its expression is
    substituted in. -/
theorem propagatesTree_assignment {x : String} {cs : List Tree}
    (hexpr : ∀ K, ∀ t ∈ cs, SubstitutesTree (expr K) K t) :
    PropagatesTree (fun K => propagateAssignment (expr K) L K x) L
      (.node i (.assignment x) cs) := by
  rintro _ K f₀ p f C rfl h
  change Ensures (propagateAssignment (expr K) L K x i) f _
  have hr := h.shows.reads.of_mem_plug (List.mem_singleton.2 rfl)
  rw [propagateAssignment, ensures_bind, ensures_ask, hr.child_eq]
  cases cs with
  | nil => exact ⟨_, .noValue _ K i x, h⟩
  | cons t cs =>
    refine ((hexpr K t List.mem_cons_self _).inside rfl C i (l := []) h).bind ?_ ?_
    · rintro b f₁ ⟨us, ⟨_, hb, hus⟩, h₁⟩
      cases hb
      obtain ⟨u, rfl⟩ := hus.exists_eq
      have hr₁ := h₁.shows.reads.of_mem_plug (List.mem_singleton.2 rfl)
      exact ensures_assign hr₁ ⟨_, .assignment hus, h₁⟩
    · rintro e f₁ ⟨us, ⟨_, hb, -⟩, -⟩
      cases hb

/-- A conditional or a loop substitutes in its test, and goes on if that is no
    integer. -/
theorem ensures_substituteTest {k : Kind} (hk : k.isControl) {K₁ : Known} {cs : List Tree}
    (hK : K.entering (.node i k cs) = K₁) (hexpr : ∀ t ∈ cs, SubstitutesTree (expr K₁) K₁ t)
    (h : Reduces f₀ p f (C.plug [.node i k cs])) {next : Bool → Option Bool → Edit (Known × Bool)}
    (hnext : ∀ {t u : Tree} {ds : List Tree} {b : Bool} {v : Option Bool} {f₁ : Forest},
      cs = t :: ds → Substitutes K₁ [t] [u] b → u.literal? = v.map .bool →
      Reduces f₀ p f₁ (C.plug [.node i k (u :: ds)]) → Ensures (next b v) f₁ fun r f' =>
        ∃ us, Propagates L C.amongStatements K [.node i k cs] us r ∧ Reduces f₀ p f' (C.plug us)) :
    Ensures (do
      let changed ← expr K₁ (← ask (·.child i 0))
      next changed (← ask (·.testValue i))) f fun r f' =>
        ∃ us, Propagates L C.amongStatements K [.node i k cs] us r ∧
          Reduces f₀ p f' (C.plug us) := by
  have hstatements : k.holdsStatements = false := by
    rcases Kind.eq_of_isControl hk with rfl | rfl <;> rfl
  refine (place_context rfl).test h
    (fun t ht => (hexpr t ht false).inside hstatements C i) ?_ ?_ ?_ ?_ ?_
  · rintro t us r ⟨b, -, hus⟩
    exact hus.exists_eq
  · rintro rfl
    exact ⟨_, .noTest _ K i hk, h⟩
  · rintro t u ds e f' rfl ⟨_, hb, -⟩
    cases hb
  · rintro t u ds b v f' rfl ⟨_, hb, hu⟩ hl h'
    cases hb
    exact ⟨_, .integerTest hk (hK ▸ hu) hl, h'⟩
  · rintro t u ds b v f' hcs ⟨_, hb, hu⟩ hl h'
    cases hb
    exact hnext hcs hu hl h'

/-- A conditional that is not settled meets what is known after its branches. -/
theorem ensures_unsettled {t u s : Tree} {cs : List Tree} {b : Bool}
    (hu : Substitutes K [t] [u] b) (hl : u.literal? = none)
    (hvisit : ∀ s' ∈ t :: s :: cs, PropagatesTree visit L s')
    (h : Reduces f₀ p f (C.plug [.node i .conditional (u :: s :: cs)])) :
    Ensures (do
      let (known₁, changed₁) ← visit K s.root
      let (known₂, changed₂) ← match ((← get).children i)[2]? with
        | some branch => visit K branch
        | none => pure (K, false)
      return (known₁.meet known₂, b || changed₁ || changed₂)) f fun r f' =>
        ∃ us, Propagates L C.amongStatements K [.node i .conditional (t :: s :: cs)] us r ∧
          Reduces f₀ p f' (C.plug us) := by
  refine ((hvisit s (by simp) _ _).inside rfl C i (l := [u]) h).bind ?_ ?_
  · rintro ⟨K₁, b₁⟩ f₁ ⟨vs, hvs, h₁⟩
    obtain ⟨v, rfl⟩ := hvs.exists_eq
    have hr₁ := h₁.shows.reads.of_mem_plug (List.mem_singleton.2 rfl)
    rw [ensures_bind, ensures_get]
    simp only [show f₁.children i = (u :: v :: cs).map Tree.root from hr₁.children_eq]
    cases cs with
    | nil => exact ⟨_, .one hu hl hvs, h₁⟩
    | cons s' cs =>
      refine ((hvisit s' (by simp) _ _).inside rfl C i (l := [u, v]) h₁).bind ?_ ?_
      · rintro ⟨K₂, b₂⟩ f₂ ⟨ws, hws, h₂⟩
        exact ⟨_, .two hu hl hvs hws, by simpa using h₂⟩
      · rintro e f₂ ⟨ws, hws, h₂⟩
        exact ⟨_, .two hu hl hvs hws, by simpa using h₂⟩
  · rintro e f₁ ⟨vs, hvs, h₁⟩
    cases cs with
    | nil => exact ⟨_, .one hu hl hvs, by simpa using h₁⟩
    | cons s' cs => exact ⟨_, .firstInside hu hl (List.cons_ne_nil _ _) hvs, by simpa using h₁⟩

/-- Propagation goes through a conditional, given that it does so below it. -/
theorem propagatesTree_conditional {cs : List Tree}
    (hexpr : ∀ K, ∀ t ∈ cs, SubstitutesTree (expr K) K t)
    (hvisit : ∀ t ∈ cs, PropagatesTree visit L t) :
    PropagatesTree (fun K => propagateConditional (expr K) visit K) L
      (.node i .conditional cs) := by
  rintro _ K f₀ p f C rfl h
  change Ensures (propagateConditional (expr K) visit K i) f _
  refine ensures_substituteTest rfl rfl (hexpr K) h ?_
  rintro t u cs b (_ | c) f₁ rfl hu hl h₁ <;>
    have hr₁ := h₁.shows.reads.of_mem_plug (List.mem_singleton.2 rfl)
  · change Ensures (ask _ >>= _) f₁ _
    rw [ensures_bind, ensures_ask, hr₁.child_eq]
    cases cs with
    | nil => exact ⟨_, .noBranch hu hl, h₁⟩
    | cons s cs => exact ensures_unsettled hu hl hvisit h₁
  · rw [ensures_bind, ensures_get]
    simp only [show f₁.children i = (u :: cs).map Tree.root from hr₁.children_eq]
    rw [List.getElem?_map]
    cases hs : (u :: cs)[branchIndex c]? with
    | none =>
      refine ((place_context rfl).giveWay h₁ (List.cons_ne_nil _ _) (branchIndex c)).bind ?_ nofun
      rintro _ f₂ ⟨-, h₂⟩
      rw [hs] at h₂
      exact ⟨_, .settledVacant _ hu hl hs, h₂⟩
    | some s =>
      obtain ⟨l, r, rfl, hlen⟩ := exists_branch hs
      simp only [Option.map_some]
      rw [ensures_bind, ensures_map]
      refine ((hvisit s (by simp) _ _).inside rfl C i (l := u :: l) h₁).mono ?_
      rintro (e | b') f₂ ⟨vs, hvs, h₂⟩
      · exact ⟨_, .settledInside hu hl hlen hvs, by simpa using h₂⟩
      · obtain ⟨v, rfl⟩ := hvs.exists_eq
        have hv : (u :: (l ++ v :: r))[branchIndex c]? = some v := by simp [← hlen]
        have h₃ : Reduces f₀ p f₂ (C.plug [.node i .conditional (u :: (l ++ v :: r))]) := by
          simpa using h₂
        refine ((place_context rfl).giveWay h₃ (List.cons_ne_nil _ _) (branchIndex c)).bind ?_ nofun
        rintro _ f₄ ⟨-, h₄⟩
        rw [hv] at h₄
        exact ⟨_, .settled hu hl hlen hvs, h₄⟩

/-- Propagation goes through a loop, given that it does so below it. -/
theorem propagatesTree_loop {cs : List Tree}
    (hexpr : ∀ K, ∀ t ∈ cs, SubstitutesTree (expr K) K t)
    (hvisit : ∀ t ∈ cs, PropagatesTree visit L t) :
    PropagatesTree (propagateLoop expr visit) L (.node i .loop cs) := by
  rintro _ K f₀ p f C rfl h
  change Ensures (propagateLoop expr visit K i) f _
  have hr := h.shows.reads.of_mem_plug (List.mem_singleton.2 rfl)
  rw [propagateLoop, ensures_bind, ensures_get]
  -- What is assigned in the loop is read before anything in it changes.
  simp only [show f.assigned i = _ from hr.assigned_eq h.shows.consistent]
  refine ensures_substituteTest rfl rfl (hexpr _) h ?_
  rintro t u cs b v f₁ rfl hu hl h₁
  by_cases hv : v = some false
  · subst hv
    simp only [if_true, ensures_bind, ensures_pure]
    refine ((place_context rfl).giveWay_none h₁
      (Tree.one_lt_weight (List.cons_ne_nil _ _))).mono ?_
    rintro _ f₂ ⟨rfl, h₂⟩
    exact ⟨_, .skip _ hu hl, h₂⟩
  · have hopen : u.literal? = none ∨ u.literal? = some (.bool true) := by
      rcases v with _ | _ | _ <;> simp_all
    have hr₁ := h₁.shows.reads.of_mem_plug (List.mem_singleton.2 rfl)
    simp only [if_neg hv]
    rw [ensures_bind, ensures_ask, hr₁.child_eq]
    cases cs with
    | nil => exact ⟨_, .noBody hu hopen, h₁⟩
    | cons s cs =>
      refine ((hvisit s (by simp) _ _).inside rfl C i (l := [u]) h₁).bind ?_ ?_
      · rintro ⟨K₁, b'⟩ f₂ ⟨vs, hvs, h₂⟩
        exact ⟨_, .loop hu hopen hvs, by simpa using h₂⟩
      · rintro e f₂ ⟨vs, hvs, h₂⟩
        exact ⟨_, .loop hu hopen hvs, by simpa using h₂⟩

/-- Propagation goes through a statement down to a depth that it does not exceed. -/
theorem propagatesTree_propagateWithin (L : NameSet) (depth : Nat) (t : Tree)
    (hd : t.ids.length ≤ depth) : PropagatesTree (propagateWithin L depth) L t := by
  induction depth generalizing t with
  | zero => exact absurd hd (Nat.not_le.2 t.length_ids_pos)
  | succ depth ih =>
    obtain ⟨i, k, cs⟩ := t
    have hle : ∀ t ∈ cs, t.ids.length ≤ depth := by
      intro t ht
      have hle := Tree.length_ids_le ht
      rw [Tree.ids_node, List.length_cons] at hd
      omega
    have hexpr : ∀ K, ∀ t ∈ cs, SubstitutesTree (substitute K depth) K t := fun K t ht =>
      substitutesTree_substitute K depth t (hle t ht)
    have hvisit : ∀ t ∈ cs, PropagatesTree (propagateWithin L depth) L t := fun t ht =>
      ih t (hle t ht)
    rintro _ K f₀ p f C rfl h
    have hr := h.shows.reads.of_mem_plug (List.mem_singleton.2 rfl)
    have hk : f.kind? i = some k := hr.kind?_eq
    have hchildren : Reduces f₀ p f ((C.down i k).plug cs) := by simpa using h
    change Ensures (propagateWithin L (depth + 1) K i) f _
    rw [propagateWithin, ensures_bind, ensures_get]
    simp only [hk, show f.children i = cs.map Tree.root from hr.children_eq]
    cases k with
    | block =>
      refine (ensures_inOrder hvisit hchildren).mono ?_
      rintro r f₁ ⟨ds, hds, h₁⟩
      exact ⟨_, .block hds, by simpa using h₁⟩
    | assignment x =>
      exact propagatesTree_assignment hexpr _ K rfl h
    | conditional =>
      exact propagatesTree_conditional hexpr hvisit _ K rfl h
    | loop => exact propagatesTree_loop hexpr hvisit _ K rfl h
    | varDecl | param => exact ⟨_, .declaration _ K i cs rfl, h⟩
    | _ =>
      refine (ensures_visitAll (sequential_substitutes K) (fun t ht => hexpr K t ht _) rfl
        hchildren).bind ?_ ?_
      · rintro b f₁ ⟨ds, ⟨_, hb, hds⟩, h₁⟩
        cases hb
        exact ⟨_, .plain rfl hds, by simpa using h₁⟩
      · rintro e f₁ ⟨ds, ⟨_, hb, -⟩, -⟩
        cases hb

/-! ## Methods -/

/-- Propagation through a method of which nothing is known, which tells whether anything
    changed. -/
def propagateAlone (method : NodeId) : Edit Bool := Prod.snd <$> propagateMethod ∅ method

/-- Propagation goes through the children of a method. -/
theorem ensures_propagateAlone {k : Kind} {cs : List Tree} (h : f.Shows (.node i k cs)) :
    Ensures (propagateAlone i) f fun x f' =>
      ∃ ds r, Propagates (f.declared i) k.holdsStatements ∅ cs ds r ∧
        Reduces f (.node i k cs) f' (.node i k ds) ∧ x = r.map Prod.snd := by
  have hchildren : Reduces f (.node i k cs) f ((Context.allChildren i k []).plug cs) := by
    simpa using Reduces.refl h
  -- No tree has more nodes than the forest, so that its size suffices as a depth.
  have hsize := h.consistent.length_ids_le_size h.reads
  rw [Tree.ids_node, List.length_cons] at hsize
  have hvisit : ∀ t ∈ cs, PropagatesTree (propagateWithin (f.declared i) f.size) (f.declared i) t :=
    fun t ht => propagatesTree_propagateWithin _ _ t (by have := Tree.length_ids_le ht; omega)
  rw [propagateAlone, ensures_map, propagateMethod, ensures_bind, ensures_get]
  simp only [show f.children i = cs.map Tree.root from h.reads.children_eq]
  refine (ensures_inOrder hvisit hchildren).mono ?_
  rintro (e | ⟨K, b⟩) f₁ ⟨ds, hds, h₁⟩
  · exact ⟨ds, _, hds, by simpa using h₁, rfl⟩
  · exact ⟨ds, _, hds, by simpa using h₁, rfl⟩

/-- Visits that do not ask what is known may each start with nothing. -/
theorem snd_inOrder (hvisit : ∀ K, visit K = visit ∅) (K : Known) (is : List NodeId) :
    Prod.snd <$> inOrder visit K is = visitAll (fun i => Prod.snd <$> visit ∅ i) is := by
  induction is generalizing K with
  | nil => rfl
  | cons i is ih =>
    rw [inOrder, visitAll, map_bind, bind_map_left, hvisit K]
    refine bind_congr fun a => ?_
    rw [← ih a.1, map_bind, bind_map_left]
    exact bind_congr fun _ => map_pure _ _

/-- The pass goes through each method as if alone, although what is known after one method
    is handed on to the next. -/
theorem propagateProgram_eq :
    propagateProgram = get >>= fun f => visitAll propagateAlone f.methods := by
  refine bind_congr fun f => ?_
  have hclear : ∀ K, propagateMethod K = propagateMethod ∅ := fun _ => rfl
  exact (map_eq_pure_bind _ _).symm.trans (snd_inOrder hclear ∅ f.methods)

end Edit

end Midend
