import Midend.Proofs.Register.Gapless

/-!
# When an allocation succeeds

An allocation needs a flow graph, which a method has unless it jumps astray, and a
coloring within the budget. As few registers as possible can always be asked for,
and a bound is met exactly if it leaves as many registers to the locals as their
least coloring has. All colored variables are in the table, so that nothing is
written until all of it can be: a failed allocation changes nothing, and one that
succeeds changes the registers of the locals.

* `coloring_minimal`, `coloring_atMost_of_lt`, `coloring_atMost_of_le`: the coloring
  within a budget, told by the least coloring;
* `allocation_writes_local_registers`: what a successful allocation writes;
* `allocation_fails_cleanly`: when an allocation fails, and how.
-/

namespace Midend.Method

variable {m m' : Method} {n : Nat}

/-! ## Colorings within a budget -/

theorem interference_eq_ok {g : FlowGraph} (hg : m.flowGraph = .ok g) :
    m.interference = .ok (.ofLiveness m (.ofMethod m g)) := by
  rw [interference, hg]
  rfl

theorem interference_eq_error {e : Error} (hg : m.flowGraph = .error e) :
    m.interference = .error e := by
  rw [interference, hg]
  rfl

theorem coloring_eq_error {e : Error} (h : m.interference = .error e) (budget : Budget) :
    m.coloring budget = .error e := by
  rw [coloring, h]
  rfl

section Interference

variable {graph : Interference} (hgraph : m.interference = .ok graph)
include hgraph

theorem undirected_of_interference : graph.Undirected := by
  rcases hg : m.flowGraph with e | g
  · rw [interference_eq_error hg] at hgraph
    cases hgraph
  · rw [interference_eq_ok hg] at hgraph
    cases hgraph
    exact Interference.undirected_ofLiveness m _

theorem coloring_minimal : m.coloring .minimal = .ok graph.leastColoring := by
  rw [coloring, hgraph]
  rfl

theorem coloring_atMost_eq (n : Nat) :
    m.coloring (.atMost n) =
      match if m.reserved ≤ n then graph.coloring? (n - m.reserved) else none with
      | some c => .ok c
      | none => .error (.registerPressure m.name n m.reserved) := by
  rw [coloring, hgraph]
  rfl

/-- A bound is too small if it does not leave as many registers as the least
    coloring has colors. -/
theorem coloring_atMost_of_lt (hlt : n < m.reserved + graph.leastColoring.k) :
    m.coloring (.atMost n) = .error (.registerPressure m.name n m.reserved) := by
  rw [coloring_atMost_eq hgraph]
  by_cases hr : m.reserved ≤ n
  · have hnone : graph.coloring? (n - m.reserved) = none := by
      rw [← Option.not_isSome_iff_eq_none,
        Interference.coloring?_isSome_iff_le (undirected_of_interference hgraph)]
      omega
    rw [if_pos hr, hnone]
  · rw [if_neg hr]

theorem coloring_atMost_of_le (hle : m.reserved + graph.leastColoring.k ≤ n) :
    ∃ c, m.coloring (.atMost n) = .ok c ∧ m.reserved + c.k = n := by
  have hr : m.reserved ≤ n := by omega
  obtain ⟨c, hc⟩ : ∃ c, graph.coloring? (n - m.reserved) = some c := by
    rw [← Option.isSome_iff_exists,
      Interference.coloring?_isSome_iff_le (undirected_of_interference hgraph)]
    omega
  refine ⟨c, ?_, ?_⟩
  · rw [coloring_atMost_eq hgraph, if_pos hr, hc]
  · rw [Interference.k_of_coloring? hc]
    omega

end Interference

/-! ## What is written -/

theorem Allocated.used_le {g : FlowGraph} {c : Coloring} (h : Allocated m m' g c) :
    c.used ≤ c.k := by
  refine le_of_forall_lt fun x hx => ?_
  obtain ⟨v, y, hv, hxy⟩ := Coloring.lt_used_iff.1 hx
  exact Nat.lt_of_le_of_lt hxy (h.proper.lt hv)

/-- Roles are as they were, and so are the names that have one. -/
theorem Rewritten.keys_eq {base : Nat} {colors : List (String × Nat)}
    (h : Rewritten m m' base colors) : m'.table.keys = m.table.keys := by
  have hscopes : m'.table.map (fun _ v => v.scope) = m.table.map fun _ v => v.scope := by
    ext x : 1
    rw [Std.ExtTreeMap.getElem?_map, Std.ExtTreeMap.getElem?_map]
    exact h.scope_eq x
  rw [← Std.ExtTreeMap.keys_map, hscopes, Std.ExtTreeMap.keys_map]

/-- A variable that is no local is as it was. -/
theorem Allocated.getElem?_of_not_local {g : FlowGraph} {c : Coloring} (h : Allocated m m' g c)
    {x : String} (hx : x ∉ m.locals) : m'.table[x]? = m.table[x]? := by
  have hscope := h.rewritten.scope_eq x
  have hregister := h.register_of_not_local hx
  rw [scope?, scope?] at hscope
  rw [register?, register?] at hregister
  rcases hv' : m'.table[x]? with _ | ⟨s', r'⟩ <;> rcases hv : m.table[x]? with _ | ⟨s, r⟩ <;>
    simp_all

/-- A successful allocation gives each local the register of its color after the
    reserved ones, below the number of registers it tells, which is within the
    budget. Two locals that meet at an instruction have different registers. All
    else in the method is as it was. -/
theorem allocation_writes_local_registers {budget : Budget} {a : Allocation}
    (h : allocate budget m = .ok a m') :
    (∀ x ∈ m.locals, ∃ color, a.coloring.colors[x]? = some color ∧
      m'.register? x = some (m.reserved + color) ∧ m.reserved + color < a.registers) ∧
    (∀ n, budget = .atMost n → a.registers ≤ n) ∧
    (∃ g, m.flowGraph = .ok g ∧ ∀ x ∈ m.locals, ∀ y ∈ m.locals, x ≠ y → ∀ i < m.code.size,
      Interference.Meet (.ofMethod m g) i x y → m'.register? x ≠ m'.register? y) ∧
    m' = { m with table := m'.table } ∧ m'.table.keys = m.table.keys ∧
    (∀ x, m'.scope? x = m.scope? x) ∧ ∀ x ∉ m.locals, m'.table[x]? = m.table[x]? := by
  obtain ⟨hcoloring, hregisters, g, halloc⟩ := coloring_of_allocate_eq_ok h
  refine ⟨fun x hx => ?_, ?_, ⟨g, halloc.flowGraph_eq, fun x hx y hy hne i hi hmeet => ?_⟩,
    halloc.rewritten.eq_table, halloc.rewritten.keys_eq, halloc.rewritten.scope_eq,
    fun x => halloc.getElem?_of_not_local⟩
  · obtain ⟨color, hcolor, hregister⟩ := halloc.register_local hx
    refine ⟨color, hcolor, hregister, ?_⟩
    rw [hregisters]
    exact Nat.add_lt_add_left (Coloring.lt_used_iff.2 ⟨x, color, hcolor, Nat.le_refl color⟩) _
  · rintro n rfl
    have hgraph := interference_eq_ok halloc.flowGraph_eq
    rcases Nat.lt_or_ge n _ with hlt | hle
    · rw [coloring_atMost_of_lt hgraph hlt] at hcoloring
      cases hcoloring
    · obtain ⟨c, hc, hk⟩ := coloring_atMost_of_le hgraph hle
      rw [hcoloring] at hc
      cases hc
      have hused := halloc.used_le
      omega
  · exact halloc.register_ne_of_meet hx hy hne hi hmeet

theorem allocation_writes_local_registers_chainedSums :
    let m' := after (allocate (.atMost 4)) chainedSums
    ∃ a, allocate (.atMost 4) chainedSums = .ok a m' ∧ a.registers ≤ 4 ∧
      (∃ r, m'.register? "c" = some r ∧ 2 ≤ r ∧ r < a.registers) ∧
      m'.register? "a" ≠ m'.register? "b" ∧ m'.table["p"]? = some ⟨.parameter, 1⟩ := by
  obtain ⟨a, ha⟩ := eq_ok_of_succeeds (x := allocate (.atMost 4)) (s := chainedSums)
    (by decide +kernel)
  obtain ⟨hlocals, hbudget, ⟨g, hg, hmeet⟩, -, -, -, hothers⟩ :=
    allocation_writes_local_registers ha
  obtain rfl : ⟨#[[1], [2], [3], []]⟩ = g :=
    Except.ok.inj ((show chainedSums.flowGraph = .ok _ by rfl).symm.trans hg)
  refine ⟨a, ha, hbudget 4 rfl, ?_, ?_, ?_⟩
  · obtain ⟨color, -, hc, hlt⟩ := hlocals "c" (by decide +kernel)
    exact ⟨_, hc, Nat.le_add_right 2 color, hlt⟩
  · -- Both are live after the second instruction, which assigns `b`.
    exact hmeet "a" (by decide +kernel) "b" (by decide +kernel) (by decide) 1 (by decide +kernel)
      (.inr (by decide +kernel))
  · rw [hothers "p" (by decide +kernel)]
    decide +kernel

/-! ## When it fails -/

theorem allocate_of_jumpsAstray (h : m.JumpsAstray) (budget : Budget) :
    ∃ label, allocate budget m = .error (.malformed (.undefinedLabel m.name label)) m := by
  rcases hg : m.flowGraph with e | g
  · obtain ⟨-, label, rfl⟩ := flowGraph_eq_error hg
    exact ⟨label, allocate_eq_error (coloring_eq_error (interference_eq_error hg) budget)⟩
  · exact absurd h (exists_flowGraph_iff.1 ⟨g, hg⟩)

theorem exists_interference (h : ¬ m.JumpsAstray) : ∃ graph, m.interference = .ok graph := by
  obtain ⟨g, hg⟩ := exists_flowGraph_iff.2 h
  exact ⟨_, interference_eq_ok hg⟩

section Interference

variable {graph : Interference} (hgraph : m.interference = .ok graph)
include hgraph

/-- Asking for as few registers as possible succeeds, with the least coloring. -/
theorem allocate_minimal :
    ∃ a m', allocate .minimal m = .ok a m' ∧ a.coloring = graph.leastColoring := by
  obtain ⟨m', hok, -⟩ := allocate_eq_ok (coloring_minimal hgraph)
  exact ⟨_, m', hok, rfl⟩

theorem allocate_atMost_of_lt (hlt : n < m.reserved + graph.leastColoring.k) :
    allocate (.atMost n) m = .error (.registerPressure m.name n m.reserved) m :=
  allocate_eq_error (coloring_atMost_of_lt hgraph hlt)

theorem allocate_atMost_of_le (hle : m.reserved + graph.leastColoring.k ≤ n) :
    ∃ a m', allocate (.atMost n) m = .ok a m' := by
  obtain ⟨c, hc, -⟩ := coloring_atMost_of_le hgraph hle
  obtain ⟨m', hok, -⟩ := allocate_eq_ok hc
  exact ⟨_, m', hok⟩

end Interference

/-- What an allocation that fails tells, and that it changes nothing. -/
theorem of_allocate_eq_error {budget : Budget} {e : Error} (h : allocate budget m = .error e m') :
    m' = m ∧ ((m.JumpsAstray ∧ ∃ label, e = .malformed (.undefinedLabel m.name label)) ∨
      ∃ n, e = .registerPressure m.name n m.reserved) := by
  by_cases hastray : m.JumpsAstray
  · obtain ⟨label, herror⟩ := allocate_of_jumpsAstray hastray budget
    rw [h] at herror
    cases herror
    exact ⟨rfl, .inl ⟨hastray, label, rfl⟩⟩
  · obtain ⟨graph, hgraph⟩ := exists_interference hastray
    rcases budget with _ | n
    · obtain ⟨a, m₁, hok, -⟩ := allocate_minimal hgraph
      rw [hok] at h
      cases h
    · rcases Nat.lt_or_ge n (m.reserved + graph.leastColoring.k) with hlt | hle
      · rw [allocate_atMost_of_lt hgraph hlt] at h
        cases h
        exact ⟨rfl, .inr ⟨n, rfl⟩⟩
      · obtain ⟨a, m₁, hok⟩ := allocate_atMost_of_le hgraph hle
        rw [hok] at h
        cases h

/-- An allocation finds the method malformed exactly if an instruction jumps to an
    undefined label, and never for a variable that is not in the table. Otherwise it
    succeeds if as few registers as possible are asked for, and a bound is too small
    exactly if it is below the reserved registers and the colors used then. A failed
    allocation changes nothing. -/
theorem allocation_fails_cleanly (m : Method) :
    (∀ budget, (∃ defect m', allocate budget m = .error (.malformed defect) m') ↔
      m.JumpsAstray) ∧
    (¬ m.JumpsAstray → ∃ a m', allocate .minimal m = .ok a m' ∧ ∀ n,
      (allocate (.atMost n) m = .error (.registerPressure m.name n m.reserved) m ↔
        n < m.reserved + a.coloring.k) ∧
      ((∃ a' m'', allocate (.atMost n) m = .ok a' m'') ↔ m.reserved + a.coloring.k ≤ n)) ∧
    ∀ budget e m', allocate budget m = .error e m' →
      m' = m ∧ ∀ x, e ≠ .malformed (.undeclaredVariable x) := by
  refine ⟨fun budget => ⟨?_, fun hastray => ?_⟩, fun hdefined => ?_, fun budget e m' h => ?_⟩
  · rintro ⟨defect, m', h⟩
    rcases (of_allocate_eq_error h).2 with ⟨hastray, -⟩ | ⟨n, he⟩
    · exact hastray
    · cases he
  · obtain ⟨label, h⟩ := allocate_of_jumpsAstray hastray budget
    exact ⟨_, m, h⟩
  · obtain ⟨graph, hgraph⟩ := exists_interference hdefined
    obtain ⟨a, m', hok, hleast⟩ := allocate_minimal hgraph
    refine ⟨a, m', hok, fun n => ?_⟩
    rw [hleast]
    rcases Nat.lt_or_ge n (m.reserved + graph.leastColoring.k) with hlt | hle
    · simp [allocate_atMost_of_lt hgraph hlt, hlt]
    · obtain ⟨a', m'', hok'⟩ := allocate_atMost_of_le hgraph hle
      simp [hok', hle]
  · obtain ⟨hm, ⟨-, label, rfl⟩ | ⟨n, rfl⟩⟩ := of_allocate_eq_error h
    · exact ⟨hm, nofun⟩
    · exact ⟨hm, nofun⟩

/-- A method whose only instruction jumps to a label that it does not have. -/
def lostJump : Method := Method.empty "f" true |>.push (.goto "end")

/-- The locals of the first method need two registers beside the two reserved
    ones. -/
theorem allocation_fails_cleanly_chainedSums :
    ¬ chainedSums.JumpsAstray ∧
      allocate (.atMost 3) chainedSums = .error (.registerPressure "f" 3 2) chainedSums ∧
      (∃ a m', allocate (.atMost 4) chainedSums = .ok a m') ∧
    lostJump.JumpsAstray ∧
      ∃ defect m', allocate .minimal lostJump = .error (.malformed defect) m' := by
  have hdefined : ¬ chainedSums.JumpsAstray := exists_flowGraph_iff.1 ⟨_, rfl⟩
  have hastray : lostJump.JumpsAstray :=
    ⟨.goto "end", by decide +kernel, "end", rfl, by decide +kernel⟩
  obtain ⟨a, m', hok, hbound⟩ := (allocation_fails_cleanly chainedSums).2.1 hdefined
  have hreserved : chainedSums.reserved = 2 := by decide +kernel
  have hcolors : (chainedSums.coloring .minimal).map Coloring.k = .ok 2 := by decide +kernel
  rw [(coloring_of_allocate_eq_ok hok).1] at hcolors
  have hk : a.coloring.k = 2 := Except.ok.inj hcolors
  refine ⟨hdefined, (hbound 3).1.2 ?_, (hbound 4).2.2 ?_, hastray,
    ((allocation_fails_cleanly lostJump).1 .minimal).2 hastray⟩
  · omega
  · omega

end Midend.Method
