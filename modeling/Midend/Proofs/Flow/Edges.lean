import Mathlib.Data.List.Forall2
import Midend.Flow.Graph

/-!
# Edges of the flow graph

When a method has a flow graph, every jump of it goes to a label that is there,
and the successors of an instruction are the places to which control may pass,
as far as they are instructions. It has none exactly if one of its instructions
jumps to a label that is not there (`exists_flowGraph_iff`).
-/

namespace Midend

/-- What a list is mapped to, if no element fails. -/
theorem forall₂_of_mapM_eq_ok {ε α β : Type} {f : α → Except ε β} {xs : List α} {ys : List β}
    (h : xs.mapM f = .ok ys) : List.Forall₂ (fun x y => f x = .ok y) xs ys := by
  induction xs generalizing ys with
  | nil =>
    cases h
    exact .nil
  | cons x xs ih =>
    rw [List.mapM_cons] at h
    cases hx : f x with
    | error e =>
      rw [hx] at h
      cases h
    | ok y =>
      rw [hx] at h
      cases hxs : xs.mapM f with
      | error e =>
        rw [hxs] at h
        cases h
      | ok ys' =>
        rw [hxs] at h
        cases h
        exact .cons hx (ih hxs)

/-- The first element that fails is why a list is not mapped. -/
theorem exists_first_of_mapM_eq_error {ε α β : Type} {f : α → Except ε β} {xs : List α} {e : ε}
    (h : xs.mapM f = .error e) :
    ∃ l x r, xs = l ++ x :: r ∧ (∀ y ∈ l, ∃ z, f y = .ok z) ∧ f x = .error e := by
  induction xs with
  | nil => cases h
  | cons x xs ih =>
    rw [List.mapM_cons] at h
    rcases hx : f x with e' | y <;> rw [hx] at h
    · cases h
      exact ⟨[], x, xs, rfl, by simp, hx⟩
    · rcases hxs : xs.mapM f with e' | ys <;> rw [hxs] at h
      · cases h
        obtain ⟨l, z, r, rfl, hl, hz⟩ := ih hxs
        exact ⟨x :: l, z, r, rfl, List.forall_mem_cons.2 ⟨⟨y, hx⟩, hl⟩, hz⟩
      · cases h

/-- The label to which the instruction may jump. -/
def Instruction.jump? : Instruction → Option String
  | goto label => some label
  | branch _ label => some label
  | _ => none

namespace Method

variable {m : Method} {g : FlowGraph}

theorem forall₂_edges (h : m.flowGraph = .ok g) :
    List.Forall₂ (fun (x : Instruction × Nat) ss => ∃ places, m.targets x.2 x.1 = .ok places ∧
      ss = (places.filter (· < m.code.size)).eraseDups) m.code.toList.zipIdx g.edges.toList := by
  simp only [flowGraph, bind, Except.bind] at h
  split at h
  next => cases h
  next edges hm =>
    cases h
    refine (forall₂_of_mapM_eq_ok hm).imp fun x ss hx => ?_
    cases ht : m.targets x.2 x.1 with
    | error e => simp [ht] at hx
    | ok places =>
      refine ⟨places, rfl, ?_⟩
      simp [ht, pure, Except.pure] at hx
      exact hx.symm

/-- The flow graph has a node for each instruction. -/
theorem size_flowGraph (h : m.flowGraph = .ok g) : g.size = m.code.size := by
  have := (forall₂_edges h).length_eq
  simpa [FlowGraph.size] using this.symm

/-- The successors of an instruction are the instructions to which control may
    pass from it. -/
theorem exists_targets (h : m.flowGraph = .ok g) {i : Nat} {instr : Instruction}
    (hi : m.code[i]? = some instr) :
    ∃ places, m.targets i instr = .ok places ∧
      g.successors i = (places.filter (· < m.code.size)).eraseDups := by
  obtain ⟨hlt, rfl⟩ := Array.getElem?_eq_some_iff.1 hi
  have hx : i < m.code.toList.zipIdx.length := by simpa using hlt
  have hs : i < g.edges.toList.length := (forall₂_edges h).length_eq ▸ hx
  obtain ⟨places, hp, he⟩ := (forall₂_edges h).get hx hs
  refine ⟨places, by simpa using hp, ?_⟩
  rw [FlowGraph.successors]
  simp only [List.get_eq_getElem, Array.getElem_toList] at he
  rw [Array.getElem?_eq_getElem (by simpa using hs), Option.getD_some, he]

/-- A place to which control may pass is a successor if it is an instruction. -/
theorem mem_successors (h : m.flowGraph = .ok g) {i j : Nat} {instr : Instruction}
    {places : List Nat} (hi : m.code[i]? = some instr) (ht : m.targets i instr = .ok places)
    (hj : j ∈ places) (hlt : j < m.code.size) : j ∈ g.successors i := by
  obtain ⟨places', ht', hs⟩ := exists_targets h hi
  rw [ht] at ht'
  cases ht'
  simpa [hs] using ⟨hj, hlt⟩

/-- The successors of an instruction are instructions. -/
theorem lt_size_of_flowGraph (h : m.flowGraph = .ok g) {i j : Nat} (hj : j ∈ g.successors i) :
    j < g.size := by
  have hi := FlowGraph.lt_size_of_mem_successors hj
  rw [size_flowGraph h] at hi ⊢
  obtain ⟨places, -, hs⟩ := exists_targets h (Array.getElem?_eq_getElem hi)
  rw [hs] at hj
  have hlt : j ∈ places ∧ j < m.code.size := by simpa using hj
  exact hlt.2

/-! ## Undefined labels -/

/-- Some instruction jumps to a label that is not defined. -/
def JumpsAstray (m : Method) : Prop := ∃ i ∈ m.code, ∃ label ∈ i.jump?, label ∉ m.labels

theorem resolve_eq_error {label : String} {e : Error} (h : m.resolve label = .error e) :
    label ∉ m.labels ∧ e = .malformed (.undefinedLabel m.name label) := by
  rw [resolve] at h
  split at h
  next => cases h
  next hnone =>
    cases h
    rw [Std.ExtTreeMap.mem_iff_isSome_getElem?, hnone]
    exact ⟨Bool.false_ne_true, rfl⟩

theorem mem_labels_of_resolve_eq_ok {label : String} {i : Nat} (h : m.resolve label = .ok i) :
    label ∈ m.labels := by
  rw [resolve] at h
  split at h
  next j hj => exact Std.ExtTreeMap.mem_iff_isSome_getElem?.2 (Option.isSome_of_eq_some hj)
  next => cases h

theorem targets_eq_error {index : Nat} {i : Instruction} {e : Error}
    (h : m.targets index i = .error e) :
    ∃ label ∈ i.jump?, label ∉ m.labels ∧ e = .malformed (.undefinedLabel m.name label) := by
  cases i with
  | goto label | branch _ label =>
    rcases hr : m.resolve label with e' | n <;>
      simp only [targets, Instruction.flow, hr, bind, Except.bind] at h <;> cases h
    exact ⟨label, rfl, resolve_eq_error hr⟩
  | _ => cases h

theorem mem_labels_of_targets_eq_ok {index : Nat} {i : Instruction} {places : List Nat}
    (h : m.targets index i = .ok places) {label : String} (hl : label ∈ i.jump?) :
    label ∈ m.labels := by
  cases i with
  | goto | branch =>
    cases hl
    rcases hr : m.resolve label with e' | n <;>
      simp only [targets, Instruction.flow, hr, bind, Except.bind] at h <;> cases h
    exact mem_labels_of_resolve_eq_ok hr
  | _ => cases hl

/-- A method without a flow graph jumps astray, and the error tells where it first
    does. -/
theorem exists_first_of_flowGraph_eq_error {e : Error} (h : m.flowGraph = .error e) :
    ∃ l i r label, m.code.toList = l ++ i :: r ∧
      (∀ j ∈ l, ∀ label ∈ j.jump?, label ∈ m.labels) ∧ label ∈ i.jump? ∧ label ∉ m.labels ∧
      e = .malformed (.undefinedLabel m.name label) := by
  simp only [flowGraph, bind, Except.bind] at h
  split at h
  next e' hm =>
    cases h
    obtain ⟨l, ⟨i, index⟩, r, hlr, hl, he⟩ := exists_first_of_mapM_eq_error hm
    have hcode : m.code.toList = l.map Prod.fst ++ i :: r.map Prod.fst := by
      rw [← List.zipIdx_map_fst 0 m.code.toList, hlr, List.map_append, List.map_cons]
    have hbefore : ∀ j ∈ l.map Prod.fst, ∀ label ∈ j.jump?, label ∈ m.labels := by
      intro j hj label hlabel
      obtain ⟨⟨j, index'⟩, hx, rfl⟩ := List.mem_map.1 hj
      obtain ⟨places, hp⟩ := hl _ hx
      rcases ht : m.targets index' j with e' | places' <;> simp only [ht] at hp
      · cases hp
      · exact mem_labels_of_targets_eq_ok ht hlabel
    rcases ht : m.targets index i with e' | places <;> simp only [ht] at he <;> cases he
    obtain ⟨label, hlabel, hundefined, rfl⟩ := targets_eq_error ht
    exact ⟨_, i, _, label, hcode, hbefore, hlabel, hundefined, rfl⟩
  next => cases h

theorem flowGraph_eq_error {e : Error} (h : m.flowGraph = .error e) :
    m.JumpsAstray ∧ ∃ label, e = .malformed (.undefinedLabel m.name label) := by
  obtain ⟨l, i, r, label, hcode, -, hlabel, hundefined, rfl⟩ :=
    exists_first_of_flowGraph_eq_error h
  have hi : i ∈ m.code := Array.mem_toList_iff.1 (by simp [hcode])
  exact ⟨⟨i, hi, label, hlabel, hundefined⟩, label, rfl⟩

/-- A method has a flow graph exactly if it does not jump astray. -/
theorem exists_flowGraph_iff : (∃ g, m.flowGraph = .ok g) ↔ ¬ m.JumpsAstray := by
  constructor
  · rintro ⟨g, hg⟩ ⟨i, hi, label, hl, hundefined⟩
    obtain ⟨index, hindex⟩ := Array.mem_iff_getElem?.1 hi
    obtain ⟨places, ht, -⟩ := exists_targets hg hindex
    exact hundefined (mem_labels_of_targets_eq_ok ht hl)
  · intro h
    rcases hg : m.flowGraph with e | g
    · exact absurd (flowGraph_eq_error hg).1 h
    · exact ⟨g, rfl⟩

end Method

end Midend
