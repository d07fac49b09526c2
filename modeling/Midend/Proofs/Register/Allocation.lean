import Midend.Proofs.Effect
import Midend.Proofs.Flow.Liveness
import Midend.Proofs.Register.LeastColoring
import Midend.Register.Allocation

/-!
# What an allocation writes

A successful allocation gives each local the register of its color, after the
reserved ones, and changes nothing else. Since the coloring is proper, two locals
that meet at some instruction have different registers.
-/

namespace Midend.Method

variable {m m' : Method}

/-- The register of a variable. -/
def register? (m : Method) (x : String) : Option Nat := m.table[x]?.map Variable.register

/-- The role of a variable. -/
def scope? (m : Method) (x : String) : Option Scope := m.table[x]?.map Variable.scope

theorem holdsRegister_iff {x : String} :
    m.holdsRegister x ↔ ∃ s, m.scope? x = some s ∧ s ≠ .field := by
  rw [holdsRegister, scope?]
  cases m.table[x]? <;> simp

theorem mem_table_of_mem_locals {x : String} (hx : x ∈ m.locals) : x ∈ m.table := by
  obtain ⟨v, hv, _⟩ := mem_locals.1 hx
  exact Std.ExtTreeMap.mem_iff_isSome_getElem?.2 (Option.isSome_of_eq_some hv)

/-- Only registers of variables differ, and only those of the given ones. -/
structure Rewritten (m m' : Method) (base : Nat) (colors : List (String × Nat)) : Prop where
  eq_table : m' = { m with table := m'.table }
  scope_eq : ∀ x, m'.scope? x = m.scope? x
  register_of_mem : ∀ {x : String} {c : Nat}, (x, c) ∈ colors → x ∈ m.table →
    m'.register? x = some (base + c)
  register_of_not_mem : ∀ {x : String}, (∀ c, (x, c) ∉ colors) → m'.register? x = m.register? x

theorem setRegister_eq_ok {x : String} {r : Nat} (hx : x ∈ m.table) :
    m.setRegister x r =
      .ok { m with table := m.table.modify x fun v => { v with register := r } } := by
  rw [setRegister, if_pos hx]

/-- Registers are assigned to different declared variables without fail. -/
theorem assign_eq_ok (base : Nat) {colors : List (String × Nat)}
    (hd : (colors.map Prod.fst).Nodup) (hm : ∀ p ∈ colors, p.1 ∈ m.table) :
    ∃ m', assign base colors m = .ok () m' ∧ Rewritten m m' base colors := by
  induction colors generalizing m with
  | nil =>
    exact ⟨m, rfl, rfl, fun _ => rfl, fun h => absurd h List.not_mem_nil, fun _ => rfl⟩
  | cons p colors ih =>
    obtain ⟨x, c⟩ := p
    rw [List.map_cons, List.nodup_cons] at hd
    have hx : x ∈ m.table := hm (x, c) List.mem_cons_self
    let m₁ : Method := { m with table := m.table.modify x fun v => { v with register := base + c } }
    have htable : ∀ y, m₁.table[y]? = if x = y then m.table[y]?.map
        (fun v => { v with register := base + c }) else m.table[y]? := by
      intro y
      rw [Std.ExtTreeMap.getElem?_modify]
      by_cases hxy : x = y
      · subst hxy
        simp
      · simp [hxy]
    obtain ⟨m', hassign, h'⟩ := ih (m := m₁) hd.2 fun q hq =>
      Std.ExtTreeMap.mem_modify.2 (hm q (List.mem_cons_of_mem _ hq))
    refine ⟨m', ?_, ?_, fun y => ?_, fun {y d} hy hmem => ?_, fun {y} hy => ?_⟩
    · have hset := setRegister_eq_ok (r := base + c) hx
      simp only [assign, bind, EStateM.bind, get_eq_ok, hset, set_eq_ok]
      exact hassign
    · rw [h'.eq_table]
    · rw [h'.scope_eq, scope?, scope?, htable]
      split
      · rw [Option.map_map]
        rfl
      · rfl
    · rcases List.mem_cons.1 hy with he | hy
      · cases he
        rw [h'.register_of_not_mem fun d hd' => hd.1 (List.mem_map.2 ⟨_, hd', rfl⟩), register?,
          htable, if_pos rfl]
        rw [Std.ExtTreeMap.mem_iff_isSome_getElem?, Option.isSome_iff_exists] at hmem
        obtain ⟨v, hv⟩ := hmem
        simp [hv]
      · exact h'.register_of_mem hy (Std.ExtTreeMap.mem_modify.2 hmem)
    · rw [h'.register_of_not_mem fun d hd' => hy d (List.mem_cons_of_mem _ hd'), register?,
        register?, htable, if_neg]
      rintro rfl
      exact hy c List.mem_cons_self

/-- What is found as a coloring within a budget is the coloring of the interference
    graph for its number of colors. -/
theorem exists_of_coloring_eq_ok {budget : Budget} {c : Coloring} (h : m.coloring budget = .ok c) :
    ∃ g, m.flowGraph = .ok g ∧
      (Interference.ofLiveness m (.ofMethod m g)).coloring? c.k = some c := by
  rw [coloring, interference] at h
  cases hg : m.flowGraph with
  | error e =>
    rw [hg] at h
    cases h
  | ok g =>
    rw [hg] at h
    refine ⟨g, rfl, ?_⟩
    have hu := Interference.undirected_ofLiveness m (.ofMethod m g)
    cases budget with
    | minimal =>
      cases h
      exact (Interference.coloring?_leastColoring hu).1
    | atMost n =>
      simp only [bind, Except.bind, pure, Except.pure] at h
      split at h
      next c' hc' =>
        cases h
        split at hc'
        · rwa [Interference.k_of_coloring? hc']
        · cases hc'
      next => cases h

/-- What a successful allocation does to a method. -/
structure Allocated (m m' : Method) (g : FlowGraph) (c : Coloring) : Prop where
  flowGraph_eq : m.flowGraph = .ok g
  coloring?_eq : (Interference.ofLiveness m (.ofMethod m g)).coloring? c.k = some c
  rewritten : Rewritten m m' m.reserved c.colors.toList

theorem Allocated.proper {g : FlowGraph} {c : Coloring} (h : Allocated m m' g c) :
    c.Proper (.ofLiveness m (.ofMethod m g)) :=
  Interference.proper_of_coloring? (Interference.undirected_ofLiveness m _) h.coloring?_eq

/-- With a coloring the allocation succeeds. It writes the registers of the coloring,
    and counts the reserved ones and those up to the largest color. -/
theorem allocate_eq_ok {budget : Budget} {c : Coloring} (hc : m.coloring budget = .ok c) :
    ∃ m', allocate budget m = .ok ⟨m.name, m.reserved + c.used, c⟩ m' ∧
      ∃ g, Allocated m m' g c := by
  obtain ⟨g, hg, hcolor⟩ := exists_of_coloring_eq_ok hc
  have hp := Interference.proper_of_coloring? (Interference.undirected_ofLiveness m _) hcolor
  have hkeys : (c.colors.toList.map Prod.fst).Nodup := by
    rw [Std.ExtTreeMap.map_fst_toList_eq_keys]
    exact Std.ExtTreeMap.distinct_keys.imp fun hne he => hne (by simp [he])
  have hmem : ∀ p ∈ c.colors.toList, p.1 ∈ m.table := by
    intro p hp'
    have hl := hp.mem_vars (Std.ExtTreeMap.mem_toList_iff_getElem?_eq_some.1 hp')
    rw [Interference.vars_ofLiveness] at hl
    exact mem_table_of_mem_locals hl
  obtain ⟨m', hassign, hr⟩ := assign_eq_ok m.reserved hkeys hmem
  refine ⟨m', ?_, g, hg, hcolor, hr⟩
  simp only [allocate, bind, EStateM.bind, get_eq_ok, hc, hassign]
  rfl

/-- Without a coloring the allocation stops before it has changed anything. -/
theorem allocate_eq_error {budget : Budget} {e : Error} (hc : m.coloring budget = .error e) :
    allocate budget m = .error e m := by
  simp only [allocate, bind, EStateM.bind, get_eq_ok, hc]
  rfl

theorem coloring_of_allocate_eq_ok {budget : Budget} {a : Allocation}
    (h : allocate budget m = .ok a m') :
    m.coloring budget = .ok a.coloring ∧ a.registers = m.reserved + a.coloring.used ∧
      ∃ g, Allocated m m' g a.coloring := by
  cases hc : m.coloring budget with
  | error e =>
    rw [allocate_eq_error hc] at h
    cases h
  | ok c =>
    obtain ⟨m₁, hok, hg⟩ := allocate_eq_ok hc
    rw [hok] at h
    cases h
    exact ⟨rfl, rfl, hg⟩

theorem registers_of_allocate_eq_ok {budget : Budget} {a : Allocation}
    (h : allocate budget m = .ok a m') :
    a.registers = m.reserved + a.coloring.used ∧ ∃ g, Allocated m m' g a.coloring :=
  (coloring_of_allocate_eq_ok h).2

theorem allocated_of_allocate_eq_ok {budget : Budget} {a : Allocation}
    (h : allocate budget m = .ok a m') : ∃ g c, Allocated m m' g c := by
  obtain ⟨_, g, hg⟩ := registers_of_allocate_eq_ok h
  exact ⟨g, _, hg⟩

namespace Allocated

variable {g : FlowGraph} {c : Coloring}

theorem code_eq (h : Allocated m m' g c) : m'.code = m.code := by rw [h.rewritten.eq_table]

theorem labels_eq (h : Allocated m m' g c) : m'.labels = m.labels := by rw [h.rewritten.eq_table]

theorem holdsRegister_eq (h : Allocated m m' g c) (x : String) :
    m'.holdsRegister x = m.holdsRegister x := by
  rw [Bool.eq_iff_iff, holdsRegister_iff, holdsRegister_iff, h.rewritten.scope_eq]

/-- A local has the register of its color. -/
theorem register_local (h : Allocated m m' g c) {x : String} (hx : x ∈ m.locals) :
    ∃ n, c.colors[x]? = some n ∧ m'.register? x = some (m.reserved + n) := by
  obtain ⟨n, hn⟩ := h.proper.exists_color (v := x) (by rwa [Interference.vars_ofLiveness])
  have hmem := Std.ExtTreeMap.mem_toList_iff_getElem?_eq_some.2 hn
  exact ⟨n, hn, h.rewritten.register_of_mem hmem (mem_table_of_mem_locals hx)⟩

/-- A variable that is no local keeps its register. -/
theorem register_of_not_local (h : Allocated m m' g c) {x : String} (hx : x ∉ m.locals) :
    m'.register? x = m.register? x := by
  refine h.rewritten.register_of_not_mem fun n hn => hx ?_
  have hmem := h.proper.mem_vars (Std.ExtTreeMap.mem_toList_iff_getElem?_eq_some.1 hn)
  rwa [Interference.vars_ofLiveness] at hmem

/-- Two locals that meet at an instruction have different registers. -/
theorem register_ne_of_meet (h : Allocated m m' g c) {x y : String} (hx : x ∈ m.locals)
    (hy : y ∈ m.locals) (hne : x ≠ y) {i : Nat} (hi : i < m.code.size)
    (hmeet : Interference.Meet (.ofMethod m g) i x y) : m'.register? x ≠ m'.register? y := by
  obtain ⟨n, hn, hxr⟩ := h.register_local hx
  obtain ⟨k, hk, hyr⟩ := h.register_local hy
  have hnk : n ≠ k := by
    rintro rfl
    have hi' : i < (Liveness.ofMethod m g).size := by
      rwa [Liveness.size_ofMethod, size_flowGraph h.flowGraph_eq]
    have hedge := Interference.mem_neighbors_ofLiveness.2 ⟨hne, hx, hy, i, hi', hmeet⟩
    exact h.proper.ne hedge hn hk
  rw [hxr, hyr]
  simpa using hnk

end Allocated

end Midend.Method
