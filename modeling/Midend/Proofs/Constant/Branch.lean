import Midend.Constant.Branch
import Midend.Proofs.Tree.Context
import Midend.Proofs.Tree.Shape
import Midend.Proofs.Tree.Weight

/-!
# What settled statements leave

The test of a conditional or a loop, as it is read from the tree, and what is in
the place of a statement that gave way: a branch, of which a block in a list of
statements is dissolved (`Tree.asBranch`), or nothing, for which an empty block
stands where one node must be (`vacant`).

The passes ask no more of a place than that trees give way there (`Edit.Place`). What
they let give way is never the lightest tree, so that each time something gets lighter.
-/

namespace Midend

/-- What a branch leaves in the place of its statement. A block in a list of
    statements is dissolved. -/
def Tree.asBranch (b : Tree) (among : Bool) : List Tree :=
  if among ∧ b.kind = .block then b.children else [b]

/-- What is left of a statement that gives way to nothing: an empty block, unless
    it is in a list of statements. -/
def vacant (among : Bool) (i : NodeId) : List Tree :=
  if among then [] else [.node i .block []]

/-- The kinds of the leaves that passes put in the place of nodes. -/
def Kind.IsResidue (k : Kind) : Prop := k = block ∨ ∃ l, k = ofLiteral l

theorem Kind.IsResidue.weight_eq {k : Kind} (h : k.IsResidue) : k.weight = 1 := by
  rcases h with rfl | ⟨l, rfl⟩
  · rfl
  · cases l <;> rfl

theorem Kind.IsResidue.not_isControl {k : Kind} (h : k.IsResidue) : ¬ k.isControl := by
  rcases h with rfl | ⟨l, rfl⟩
  · decide
  · cases l <;> exact Bool.false_ne_true

/-- The branch that is taken stands at its place after the test. -/
theorem exists_branch {u s : Tree} {cs : List Tree} {c : Bool}
    (hs : (u :: cs)[branchIndex c]? = some s) :
    ∃ l r, cs = l ++ s :: r ∧ (u :: l).length = branchIndex c := by
  obtain ⟨n, hn⟩ : ∃ n, branchIndex c = n + 1 := by cases c <;> exact ⟨_, rfl⟩
  rw [hn, List.getElem?_cons_succ] at hs
  obtain ⟨hlt, rfl⟩ := List.getElem?_eq_some_iff.1 hs
  refine ⟨cs.take n, cs.drop (n + 1), by simp, ?_⟩
  rw [List.length_cons, List.length_take_of_le (Nat.le_of_lt hlt), hn]

namespace Forest

variable {f : Forest}

theorem Shows.amongStatements_eq {C : Context} {t : Tree} {ts : List Tree}
    (h : f.Shows (C.plug ts)) (ht : t ∈ ts) :
    f.amongStatements t.root = C.amongStatements := by
  simp [Forest.amongStatements, h.parent?_eq ht, h.kind?_level, Context.amongStatements]

theorem Reads.testValue_eq {i : NodeId} {k : Kind} {u : Tree} {cs : List Tree}
    (h : f.Reads (.node i k (u :: cs))) :
    f.testValue i = match u.literal? with
      | some (.bool b) => .ok (some b)
      | some (.int v) => .error (.malformed (.integerCondition k.label i v))
      | none => .ok none := by
  have hk : f.kind? i = some k := h.kind?_eq
  have hu : f.literal? u.root = u.literal? := (h.of_mem_children List.mem_cons_self).literal?_eq
  rw [testValue, h.child_eq]
  simp only [List.getElem?_cons_zero, bind, Except.bind, hu, hk, Option.map_some, Option.getD_some]
  cases u.literal? with
  | none => rfl
  | some l => cases l <;> rfl

end Forest

namespace Edit

open Forest

variable {f : Forest} {C : Context} {t : Tree} {a : Bool}

theorem ensures_giveWay_none (h : f.Shows (C.plug [t])) :
    Ensures (giveWay t.root none) f fun r f' =>
      r = .ok () ∧ f'.Shows (C.plug (vacant C.amongStatements f.size)) := by
  rw [giveWay, ensures_bind, ensures_get]
  simp only [h.amongStatements_eq (List.mem_singleton.2 rfl)]
  cases hC : C.amongStatements with
  | false => exact ensures_replaceByLeaf h .block
  | true => exact ensures_cut h

theorem ensures_giveWay_some {b : Tree} (h : f.Shows (C.plug [t])) (hb : b ∈ t.children) :
    Ensures (giveWay t.root (some b.root)) f fun r f' =>
      r = .ok () ∧ f'.Shows (C.plug (b.asBranch C.amongStatements)) := by
  obtain ⟨i, k, cs⟩ := t
  have hmem : Tree.node i k cs ∈ [Tree.node i k cs] := List.mem_singleton.2 rfl
  have hkind : f.kind? b.root = some b.kind :=
    ((h.reads.of_mem_plug hmem).of_mem_children hb).kind?_eq
  have hamong : f.amongStatements i = C.amongStatements := h.amongStatements_eq hmem
  rw [giveWay, ensures_bind, ensures_get]
  simp only [Tree.root_node, hamong]
  cases hC : C.amongStatements with
  | false => simpa [Tree.asBranch] using ensures_replaceByChild hb h
  | true =>
    by_cases hk : b.kind = .block
    · simpa [Tree.asBranch, hkind, hk] using ensures_dissolve hb h
    · simpa [Tree.asBranch, hkind, hk] using ensures_replaceByChild hb h

/-- A way in which forests hold trees, among statements or not, such that a tree which is
    held alone can give way. -/
structure Place (a : Bool) (holds : Forest → List Tree → Prop) : Prop where
  consistent : ∀ {f t}, holds f [t] → f.Consistent
  reads : ∀ {f t}, holds f [t] → f.Reads t
  replaceByLeaf : ∀ {f t k}, holds f [t] → 1 < t.weight → k.IsResidue →
    Ensures (do replace t.root (← leaf k)) f fun r f' => r = .ok () ∧ holds f' [.node f.size k []]
  giveWay_none : ∀ {f t}, holds f [t] → 1 < t.weight →
    Ensures (giveWay t.root none) f fun r f' => r = .ok () ∧ holds f' (vacant a f.size)
  giveWay_some : ∀ {f t b}, holds f [t] → b ∈ t.children →
    Ensures (giveWay t.root (some b.root)) f fun r f' => r = .ok () ∧ holds f' (b.asBranch a)

namespace Place

variable {holds : Forest → List Tree → Prop} (hplace : Place a holds)
include hplace

/-- A statement gives way to the child that is at a place, if there is one. -/
theorem giveWay {i : NodeId} {k : Kind} {cs : List Tree} (h : holds f [.node i k cs])
    (hcs : cs ≠ []) (n : Nat) :
    Ensures (do giveWay i ((← get).children i)[n]?) f fun r f' => r = .ok () ∧
      holds f' (match cs[n]? with
        | some b => b.asBranch a
        | none => vacant a f.size) := by
  have hnone := hplace.giveWay_none h (Tree.one_lt_weight hcs)
  rw [ensures_bind, ensures_get]
  simp only [show f.children i = cs.map Tree.root from (hplace.reads h).children_eq,
    List.getElem?_map]
  cases hb : cs[n]? with
  | none => exact hnone
  | some b => exact hplace.giveWay_some h (List.mem_of_getElem? hb)

/-- A conditional or a loop visits its test, and goes on if that is no integer
    then. -/
theorem test {α : Type} {visit : NodeId → Edit Bool}
    {rel : List Tree → List Tree → Except Error Bool → Prop} {next : Bool → Option Bool → Edit α}
    {post : Except Error α → Forest → Prop} {i : NodeId} {k : Kind} {cs : List Tree}
    (h : holds f [.node i k cs])
    (hvisit : ∀ t ∈ cs, VisitsIn (fun f ts => holds f [.node i k ts]) visit rel t)
    (hone : ∀ {t us r}, rel [t] us r → ∃ u, us = [u])
    (hnil : cs = [] → post (.error (.malformed (.missingChild k.label i 0))) f)
    (hstop : ∀ {t u ds e f'}, cs = t :: ds → rel [t] [u] (.error e) →
      holds f' [.node i k (u :: ds)] → post (.error e) f')
    (hint : ∀ {t u ds b v f'}, cs = t :: ds → rel [t] [u] (.ok b) → u.literal? = some (.int v) →
      holds f' [.node i k (u :: ds)] →
      post (.error (.malformed (.integerCondition k.label i v))) f')
    (hnext : ∀ {t u ds b c f'}, cs = t :: ds → rel [t] [u] (.ok b) → u.literal? = c.map .bool →
      holds f' [.node i k (u :: ds)] → Ensures (next b c) f' post) :
    Ensures (do
      let changed ← visit (← ask (·.child i 0))
      next changed (← ask (·.testValue i))) f post := by
  rw [ensures_bind, ensures_ask, (hplace.reads h).child_eq]
  cases cs with
  | nil => exact hnil rfl
  | cons t ds =>
    refine (hvisit t List.mem_cons_self (l := []) h).bind ?_ ?_
    · rintro b f₁ ⟨us, hus, h₁⟩
      obtain ⟨u, rfl⟩ := hone hus
      rw [ensures_bind, ensures_ask, (hplace.reads h₁).testValue_eq]
      rcases hl : u.literal? with _ | (v | c)
      · exact hnext rfl hus hl h₁
      · exact hint rfl hus hl h₁
      · exact hnext rfl hus hl h₁
    · rintro e f₁ ⟨us, hus, h₁⟩
      obtain ⟨u, rfl⟩ := hone hus
      exact hstop rfl hus h₁

end Place

end Edit

end Midend
