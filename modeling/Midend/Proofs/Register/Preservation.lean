import Midend.Proofs.Code.Layout
import Midend.Proofs.Code.Machine
import Midend.Proofs.Effect
import Midend.Proofs.Register.Allocation

/-!
# Allocation preserves meaning

A method runs in the registers that an allocation gives its variables as it runs
with its variables kept by name: step by step, the two machines are at the same
instruction, in the same world, and leave the method with the same value.

Throughout the run the registers *agree* with the names on the receiver, the
parameters and the locals that are live. An instruction reads only such variables.
One that assigns a variable changes its register, which is the register of no
other variable that is live afterwards; so the registers still agree.

The object of a field access does not count as read. The objects of a method
must therefore read no local: one that is a local, or an element of an array that
is a local, may be overwritten while it is still needed (`element_receiver_lost`).
-/

namespace Midend

namespace Instruction

/-- The object of the field access that the instruction is or holds. -/
def receiver? : Instruction → Option Operand
  | putField object _ _ => some object
  | getField object _ => some object
  | assign _ value => value.receiver?
  | branch test _ => test.receiver?
  | _ => none

/-- The instruction that computes what an assignment stores or a branch tests. -/
def inner? : Instruction → Option Instruction
  | assign _ value => some value
  | branch test _ => some test
  | _ => none

/-- Whether the instruction computes a value. -/
def isValue : Instruction → Bool
  | call _ _ | not _ | binary _ _ _ | single _ | getField _ _ => true
  | _ => false

end Instruction

namespace Method

/-- The objects of field accesses read no local. -/
def ReceiversReadNoLocal (m : Method) : Prop :=
  ∀ i ∈ m.code, ∀ o ∈ i.receiver?, ∀ x ∈ o.reads, x ∉ m.locals

/-- The variables that are live before an instruction. -/
def liveBefore (m : Method) (i : Nat) : NameSet :=
  match m.flowGraph with
  | .ok g => (Liveness.ofMethod m g).liveIn i
  | .error _ => ∅

/-- The register of a variable as a slot of a machine. -/
def slot (m : Method) (x : String) : Nat := (m.register? x).getD 0

/-- The method with its variables kept by name. -/
def byName {ν ω : Type} (m : Method) (S : Surroundings ν ω) : Machine String ν ω := ⟨m, id, S⟩

/-- The method with its variables kept in their registers. -/
def inRegisters {ν ω : Type} (m : Method) (S : Surroundings ν ω) : Machine Nat ν ω :=
  ⟨m, m.slot, S⟩

/-- The registers of `m'` hold the values of the receiver, the parameters and the
    locals that are live before an instruction of `m`. -/
def Agrees {ν : Type} (m m' : Method) (i : Nat) (names : String → ν) (registers : Nat → ν) : Prop :=
  ∀ x, m.holdsRegister x → (x ∈ m.locals → x ∈ m.liveBefore i) → names x = registers (m'.slot x)

/-- The machines are at the same place in the same world, or both have left the
    method, with the same value, or both failed; at an instruction the registers
    agree. -/
inductive Matches {ν ω : Type} (m m' : Method) :
    MachineState String ν ω → MachineState Nat ν ω → Prop
  | running {i : Nat} {names : String → ν} {registers : Nat → ν} (w : ω) :
    Agrees m m' i names registers → Matches m m' (.running i names w) (.running i registers w)
  | left (v : Option ν) (w : ω) : Matches m m' (.left v w) (.left v w)
  | failed (w : ω) : Matches m m' (.failed w) (.failed w)

end Method

/-! ## What an instruction reads -/

namespace Machine

variable {κ κ' ν ω : Type}

/-- The machines run the same code in the same surroundings, with the same
    variables in slots. -/
structure Twin (c : Machine κ ν ω) (d : Machine κ' ν ω) : Prop where
  surroundings_eq : d.surroundings = c.surroundings
  holds_eq : ∀ x, d.method.holdsRegister x = c.method.holdsRegister x
  code_eq : d.method.code = c.method.code
  labels_eq : d.method.labels = c.method.labels

variable {c : Machine κ ν ω} {d : Machine κ' ν ω} (h : Twin c d) {s : κ → ν} {r : κ' → ν}
include h

theorem Twin.name_eq {x : String} (w : ω)
    (hx : c.method.holdsRegister x → s (c.slot x) = r (d.slot x)) :
    c.name s w x = d.name r w x := by
  rw [name, name, h.holds_eq, h.surroundings_eq]
  split
  next hh => rw [hx hh]
  next => rfl

theorem Twin.operand_eq {o : Operand} (w : ω)
    (ho : ∀ x ∈ o.reads, c.method.holdsRegister x → s (c.slot x) = r (d.slot x)) :
    c.operand s w o = d.operand r w o := by
  induction o with
  | const v => rw [operand, operand, h.surroundings_eq]
  | var x => exact h.name_eq w (ho x (List.mem_singleton.2 rfl))
  | element array index ih =>
    rw [operand, operand, h.surroundings_eq, h.name_eq w (ho array List.mem_cons_self),
      ih fun x hx => ho x (List.mem_cons_of_mem _ hx)]

theorem Twin.mapM_operand_eq {os : List Operand} (w : ω)
    (ho : ∀ x ∈ os.flatMap Operand.reads, c.method.holdsRegister x →
      s (c.slot x) = r (d.slot x)) : os.mapM (c.operand s w) = os.mapM (d.operand r w) := by
  induction os with
  | nil => rfl
  | cons o os ih =>
    rw [List.flatMap_cons] at ho
    rw [List.mapM_cons, List.mapM_cons,
      h.operand_eq w fun x hx => ho x (List.mem_append_left _ hx),
      ih fun x hx => ho x (List.mem_append_right _ hx)]

theorem Twin.storeOutside_eq {o : Operand} (w : ω) (v : ν)
    (ho : o.var? = none → ∀ x ∈ o.reads, c.method.holdsRegister x → s (c.slot x) = r (d.slot x)) :
    c.storeOutside s w v o = d.storeOutside r w v o := by
  cases o with
  | const _ => rfl
  | var x => rw [storeOutside, storeOutside, h.surroundings_eq]
  | element array index =>
    rw [storeOutside, storeOutside, h.surroundings_eq,
      h.name_eq w (ho rfl array List.mem_cons_self),
      h.operand_eq w fun x hx => ho rfl x (List.mem_cons_of_mem _ hx)]

/-- The value of an instruction depends on what it reads and on its object. -/
theorem Twin.value_eq {i : Instruction} (w : ω)
    (hr : ∀ x ∈ i.reads, c.method.holdsRegister x → s (c.slot x) = r (d.slot x))
    (ho : ∀ o, i.receiver? = some o → ∀ x ∈ o.reads, c.method.holdsRegister x →
      s (c.slot x) = r (d.slot x)) : c.value s w i = d.value r w i := by
  cases i with
  | call method operands => rw [value, value, h.surroundings_eq, h.mapM_operand_eq w hr]
  | not x => rw [value, value, h.surroundings_eq, h.operand_eq w hr]
  | binary op x y =>
    rw [value, value, h.surroundings_eq,
      h.operand_eq w fun z hz => hr z (List.mem_append_left _ hz),
      h.operand_eq w fun z hz => hr z (List.mem_append_right _ hz)]
  | single x => rw [value, value, h.operand_eq w hr]
  | getField object field =>
    rw [value, value, h.surroundings_eq, h.operand_eq w (ho object rfl)]
  | _ => rfl

end Machine

/-! ## Agreement from step to step -/

namespace Method

/-- An assignment to a variable that holds a register assigns that variable, and
    any other assignment none. -/
theorem mem_defs_assign {m : Method} {target : Operand} {v : Instruction} {y : String} :
    y ∈ m.defs (.assign target v) ↔ target.var?.filter m.holdsRegister = some y := by
  rw [defs, NameSet.mem_of, Instruction.writes?]
  cases target.var? with
  | none => simp
  | some x => by_cases hx : m.holdsRegister x <;> simp [Option.filter_some, hx, eq_comm]

theorem mem_uses {m : Method} {i : Instruction} {x : String} :
    x ∈ m.uses i ↔ x ∈ i.reads ∧ m.holdsRegister x := by
  rw [uses, NameSet.mem_of, List.mem_filter]

theorem targets_of_next {m : Method} {index : Nat} {i : Instruction} (hi : i.flow = .next) :
    m.targets index i = .ok [index + 1] := by
  rw [targets, hi]
  rfl

/-- The setting of an allocated method: `m` with its registers rewritten to those
    of `m'`. -/
structure Setting (m m' : Method) (g : FlowGraph) (c : Coloring) : Prop where
  layout : m.Layout
  receivers : m.ReceiversReadNoLocal
  allocated : Allocated m m' g c

namespace Setting

variable {m m' : Method} {g : FlowGraph} {c : Coloring} (h : Setting m m' g c)
include h

theorem liveBefore_eq (i : Nat) : m.liveBefore i = (Liveness.ofMethod m g).liveIn i := by
  rw [liveBefore, h.allocated.flowGraph_eq]

theorem twin {ν ω : Type} (S : Surroundings ν ω) : (m.byName S).Twin (m'.inRegisters S) where
  surroundings_eq := rfl
  holds_eq := h.allocated.holdsRegister_eq
  code_eq := h.allocated.code_eq
  labels_eq := h.allocated.labels_eq

/-- What is live before a place to which control may pass, and not assigned, is
    live before the instruction. -/
theorem mem_liveBefore {i j : Nat} {instr : Instruction} {places : List Nat} {x : String}
    (hi : m.code[i]? = some instr) (ht : m.targets i instr = .ok places) (hj : j ∈ places)
    (hx : x ∈ m.liveBefore j) :
    x ∈ (Liveness.ofMethod m g).liveOut i ∧ (x ∉ m.defs instr → x ∈ m.liveBefore i) := by
  have hg := h.allocated.flowGraph_eq
  rw [h.liveBefore_eq] at hx
  have hlt : j < m.code.size := by
    refine Nat.lt_of_not_le fun hle => ?_
    exact (Liveness.not_mem_of_size_le (by rwa [size_flowGraph hg]) x).1 hx
  have hout : x ∈ (Liveness.ofMethod m g).liveOut i :=
    Liveness.mem_liveOut_iff.2 ⟨j, mem_successors hg hi ht hj hlt, hx⟩
  refine ⟨hout, fun hd => ?_⟩
  have hsize : i < g.size := by
    rw [size_flowGraph hg]
    exact (Array.getElem?_eq_some_iff.1 hi).1
  rw [h.liveBefore_eq, Liveness.mem_liveIn_iff hsize, Liveness.defs_ofMethod m g hi]
  exact .inr ⟨hout, hd⟩

/-- The registers still agree after an instruction that assigns no variable. -/
theorem agrees_next {ν : Type} {i j : Nat} {instr : Instruction} {places : List Nat}
    {names : String → ν} {registers : Nat → ν} (ha : Agrees m m' i names registers)
    (hi : m.code[i]? = some instr) (ht : m.targets i instr = .ok places) (hj : j ∈ places)
    (hd : ∀ x, x ∉ m.defs instr) : Agrees m m' j names registers := by
  intro x hx hl
  exact ha x hx fun hloc => (h.mem_liveBefore hi ht hj (hl hloc)).2 (hd x)

/-- The register of a variable that is assigned is that of no other variable that
    is needed afterwards. -/
theorem slot_ne {i : Nat} {instr : Instruction} {x y : String} (hi : m.code[i]? = some instr)
    (hx : m.holdsRegister x) (hy : m.holdsRegister y) (hxy : x ≠ y) (hd : x ∈ m.defs instr)
    (hl : y ∈ m.locals → y ∈ (Liveness.ofMethod m g).liveOut i) : m'.slot x ≠ m'.slot y := by
  have ha := h.allocated
  -- A variable that is no local keeps its register, which is a reserved one.
  have hkeeps : ∀ {z : String}, m.holdsRegister z → z ∉ m.locals →
      ∃ v, m.table[z]? = some v ∧ (v.scope = .receiver ∨ v.scope = .parameter) ∧
        m'.slot z = v.register := by
    intro z hz hloc
    obtain ⟨s, hs, hfield⟩ := holdsRegister_iff.1 hz
    obtain ⟨v, hv, rfl⟩ := Option.map_eq_some_iff.1 hs
    refine ⟨v, hv, ?_, by rw [slot, ha.register_of_not_local hloc, register?, hv]; rfl⟩
    have hnl : v.scope ≠ .localVar := fun he => hloc (mem_locals.2 ⟨v, hv, he⟩)
    cases hsc : v.scope <;> simp_all
  have hcolor : ∀ {z : String}, z ∈ m.locals → m.reserved ≤ m'.slot z := by
    intro z hz
    obtain ⟨n, _, hr⟩ := ha.register_local hz
    rw [slot, hr]
    exact Nat.le_add_right _ _
  by_cases hxl : x ∈ m.locals <;> by_cases hyl : y ∈ m.locals
  · have hlt := (Array.getElem?_eq_some_iff.1 hi).1
    have hmeet : Interference.Meet (.ofMethod m g) i x y := by
      refine .inr ⟨.inl ?_, .inr (hl hyl)⟩
      rwa [Liveness.defs_ofMethod m g hi]
    have hne := ha.register_ne_of_meet hxl hyl hxy hlt hmeet
    obtain ⟨n, _, hxr⟩ := ha.register_local hxl
    obtain ⟨k, _, hyr⟩ := ha.register_local hyl
    rw [hxr, hyr] at hne
    rw [slot, slot, hxr, hyr]
    simpa using hne
  · obtain ⟨v, hv, hs, hslot⟩ := hkeeps hy hyl
    have := h.layout.register_lt hv hs
    have := hcolor hxl
    omega
  · obtain ⟨v, hv, hs, hslot⟩ := hkeeps hx hxl
    have := h.layout.register_lt hv hs
    have := hcolor hyl
    omega
  · obtain ⟨v, hv, hs, hslot⟩ := hkeeps hx hxl
    obtain ⟨u, hu, hs', hslot'⟩ := hkeeps hy hyl
    rw [hslot, hslot']
    exact fun he => hxy (h.layout.eq_of_register_eq hv hu hs hs' he)

/-- The registers still agree after an assignment, in both machines, of the same
    value to a variable. -/
theorem agrees_assign {ν : Type} {i : Nat} {x : String} {target : Operand} {value : Instruction}
    {names : String → ν} {registers : Nat → ν} (ha : Agrees m m' i names registers)
    (hi : m.code[i]? = some (.assign target value))
    (hx : target.var?.filter m.holdsRegister = some x) (v : ν) :
    Agrees m m' (i + 1) (Function.update names x v)
      (Function.update registers (m'.slot x) v) := by
  intro y hy hl
  have ht : m.targets i (.assign target value) = .ok [i + 1] := targets_of_next rfl
  have hd : x ∈ m.defs (.assign target value) := mem_defs_assign.2 hx
  by_cases hyx : y = x
  · subst hyx
    rw [Function.update_self, Function.update_self]
  · have hlive := fun hloc => h.mem_liveBefore hi ht List.mem_cons_self (hl hloc)
    have hslot : m'.slot x ≠ m'.slot y :=
      h.slot_ne hi (Option.filter_eq_some_iff.1 hx).2 hy (Ne.symm hyx) hd fun hloc => (hlive hloc).1
    rw [Function.update_of_ne hyx, Function.update_of_ne hslot.symm]
    refine ha y hy fun hloc => (hlive hloc).2 fun hyd => hyx ?_
    rw [mem_defs_assign, hx] at hyd
    exact (Option.some.inj hyd).symm

/-- The registers agree on what an instruction reads. -/
theorem agrees_reads {ν : Type} {i : Nat} {instr : Instruction} {names : String → ν}
    {registers : Nat → ν} (ha : Agrees m m' i names registers) (hi : m.code[i]? = some instr) :
    ∀ x ∈ instr.reads, m.holdsRegister x → names x = registers (m'.slot x) := by
  intro x hx hh
  refine ha x hh fun _ => ?_
  have hsize : i < g.size := by
    rw [size_flowGraph h.allocated.flowGraph_eq]
    exact (Array.getElem?_eq_some_iff.1 hi).1
  rw [h.liveBefore_eq, Liveness.mem_liveIn_iff hsize, Liveness.uses_ofMethod m g hi]
  exact .inl (mem_uses.2 ⟨hx, hh⟩)

/-- The registers agree on what the object of a field access reads. -/
theorem agrees_receiver {ν : Type} {i : Nat} {instr : Instruction} {names : String → ν}
    {registers : Nat → ν} (ha : Agrees m m' i names registers) (hi : m.code[i]? = some instr)
    {o : Operand} (ho : instr.receiver? = some o) :
    ∀ x ∈ o.reads, m.holdsRegister x → names x = registers (m'.slot x) := by
  intro x hx hh
  exact ha x hh fun hloc => absurd hloc (h.receivers instr (Array.mem_of_getElem? hi) o ho x hx)

/-! ## Simulation -/

/-- Going on at the next instruction after one that assigns no variable. -/
theorem matches_next {ν ω : Type} {i : Nat} {instr : Instruction} {names : String → ν}
    {registers : Nat → ν} (ha : Agrees m m' i names registers) (hi : m.code[i]? = some instr)
    (hf : instr.flow = .next) (hd : ∀ x, x ∉ m.defs instr) (w : ω) :
    Matches m m' (.running (i + 1) names w) (.running (i + 1) registers w) :=
  .running w (h.agrees_next ha hi (targets_of_next hf) List.mem_cons_self hd)

theorem value_inner_eq {ν ω : Type} (S : Surroundings ν ω) {i : Nat} {instr v : Instruction}
    {names : String → ν} {registers : Nat → ν} (ha : Agrees m m' i names registers)
    (hi : m.code[i]? = some instr) (hreads : v.reads ⊆ instr.reads)
    (hrec : v.receiver? = instr.receiver?) (w : ω) :
    (m.byName S).value names w v = (m'.inRegisters S).value registers w v :=
  (h.twin S).value_eq w (fun x hx => h.agrees_reads ha hi x (hreads hx))
    fun _ ho => h.agrees_receiver ha hi (hrec ▸ ho)

theorem execute_assign {ν ω : Type} (S : Surroundings ν ω) {i : Nat} {target : Operand}
    {value : Instruction} {names : String → ν} {registers : Nat → ν}
    (ha : Agrees m m' i names registers) (hi : m.code[i]? = some (.assign target value)) (w : ω) :
    Matches m m' (((m.byName S).execute i names w (.assign target value)).getD (.failed w))
      (((m'.inRegisters S).execute i registers w (.assign target value)).getD (.failed w)) := by
  have hreads : value.reads ⊆ (Instruction.assign target value).reads := by
    cases target with
    | element array index => exact List.subset_append_right _ _
    | _ => exact List.Subset.refl _
  rw [Machine.execute, Machine.execute, h.value_inner_eq S ha hi hreads rfl]
  cases (m'.inRegisters S).value registers w value with
  | none => exact .failed w
  | some p =>
    obtain ⟨v, w₁⟩ := p
    have hholds : m'.holdsRegister = m.holdsRegister := funext h.allocated.holdsRegister_eq
    simp only [Option.bind_eq_bind, Option.bind_some, Machine.store, byName, inRegisters, hholds]
    cases hx : target.var?.filter m.holdsRegister with
    | some x => exact .running w₁ (h.agrees_assign ha hi hx v)
    | none =>
      have hout : (m.byName S).storeOutside names w₁ v target =
          (m'.inRegisters S).storeOutside registers w₁ v target := by
        refine (h.twin S).storeOutside_eq w₁ v fun ht x hx => h.agrees_reads ha hi x ?_
        cases target with
        | const _ => exact absurd hx List.not_mem_nil
        | var _ => cases ht
        | element array index => exact List.mem_append_left _ hx
      simp only [byName, inRegisters] at hout
      rw [hout]
      cases Machine.storeOutside ⟨m', m'.slot, S⟩ registers w₁ v target with
      | none => exact .failed w
      | some w₂ =>
        exact h.matches_next ha hi rfl (fun y hy => by simp [mem_defs_assign.1 hy] at hx) w₂

/-- The two machines match after an instruction if they did before it. -/
theorem execute_matches {ν ω : Type} (S : Surroundings ν ω) {i : Nat} {instr : Instruction}
    {names : String → ν} {registers : Nat → ν} (ha : Agrees m m' i names registers)
    (hi : m.code[i]? = some instr) (w : ω) :
    Matches m m' (((m.byName S).execute i names w instr).getD (.failed w))
      (((m'.inRegisters S).execute i registers w instr).getD (.failed w)) := by
  -- An instruction that computes a value, and drops it, goes on with the next one.
  have hvalue : ∀ v : Instruction, m.code[i]? = some v → v.flow = .next → v.writes? = none →
      Matches m m'
        ((((m.byName S).value names w v).bind fun p => some (.running (i + 1) names p.2)).getD
          (.failed w))
        ((((m'.inRegisters S).value registers w v).bind
          fun p => some (.running (i + 1) registers p.2)).getD (.failed w)) := by
    intro v hi hf hd
    rw [h.value_inner_eq S ha hi (List.Subset.refl _) rfl]
    cases (m'.inRegisters S).value registers w v with
    | none => exact .failed w
    | some p => exact h.matches_next ha hi hf (fun y => by simp [defs, hd]) p.2
  cases instr with
  | assign target value => exact h.execute_assign S ha hi w
  | ret value =>
    cases value with
    | none => exact .left none w
    | some x =>
      have hx := (h.twin S).operand_eq w (h.agrees_reads ha hi)
      rw [Machine.execute, Machine.execute, hx]
      cases (m'.inRegisters S).operand registers w x with
      | none => exact .failed w
      | some v => exact .left (some v) w
  | putField object field x =>
    have ho := (h.twin S).operand_eq w (h.agrees_receiver ha hi rfl)
    have hx := (h.twin S).operand_eq w (h.agrees_reads ha hi)
    rw [Machine.execute, Machine.execute, ho, hx]
    cases (m'.inRegisters S).operand registers w object with
    | none => exact .failed w
    | some o =>
      cases (m'.inRegisters S).operand registers w x with
      | none => exact .failed w
      | some v =>
        simp only [Option.bind_eq_bind, Option.bind_some, byName, inRegisters]
        cases S.setField o field v w with
        | none => exact .failed w
        | some w₁ =>
          exact h.matches_next ha hi rfl (fun y => by simp [defs, Instruction.writes?]) w₁
  | goto label =>
    rw [Machine.execute, Machine.execute]
    simp only [byName, inRegisters, h.allocated.labels_eq]
    cases hl : m.labels[label]? with
    | none => exact .failed w
    | some j =>
      have ht : m.targets i (.goto label) = .ok [j] := by
        simp [targets, Instruction.flow, resolve, hl, pure, Except.pure, bind, Except.bind]
      exact .running w (h.agrees_next ha hi ht List.mem_cons_self
        fun y => by simp [defs, Instruction.writes?])
  | branch test label =>
    have hreads : test.reads ⊆ (Instruction.branch test label).reads := List.Subset.refl _
    rw [Machine.execute, Machine.execute, h.value_inner_eq S ha hi hreads rfl]
    cases (m'.inRegisters S).value registers w test with
    | none => exact .failed w
    | some p =>
      obtain ⟨v, w₁⟩ := p
      simp only [Option.bind_eq_bind, Option.bind_some, byName, inRegisters,
        h.allocated.labels_eq]
      cases hl : m.labels[label]? with
      | none => exact .failed w
      | some j =>
        have ht : m.targets i (.branch test label) = .ok [j, i + 1] := by
          simp [targets, Instruction.flow, resolve, hl, pure, Except.pure, bind, Except.bind]
        refine .running w₁ (h.agrees_next ha hi ht ?_ fun y => by simp [defs, Instruction.writes?])
        by_cases hv : S.holds v <;> simp [hv]
  | call _ _ => exact hvalue _ hi rfl rfl
  | not _ => exact hvalue _ hi rfl rfl
  | binary _ _ _ => exact hvalue _ hi rfl rfl
  | single _ => exact hvalue _ hi rfl rfl
  | getField _ _ => exact hvalue _ hi rfl rfl

theorem step_matches {ν ω : Type} (S : Surroundings ν ω) {a : MachineState String ν ω}
    {b : MachineState Nat ν ω} (hab : Matches m m' a b) :
    Matches m m' ((m.byName S).step a) ((m'.inRegisters S).step b) := by
  cases hab with
  | @running i names registers w ha =>
    simp only [Machine.step, byName, inRegisters, h.allocated.code_eq]
    cases hi : m.code[i]? with
    | none => exact .left none w
    | some instr => exact h.execute_matches S ha hi w
  | left v w => exact .left v w
  | failed w => exact .failed w

theorem run_matches {ν ω : Type} (S : Surroundings ν ω) (n : Nat) {a : MachineState String ν ω}
    {b : MachineState Nat ν ω} (hab : Matches m m' a b) :
    Matches m m' ((m.byName S).run n a) ((m'.inRegisters S).run n b) := by
  induction n generalizing a b with
  | zero => exact hab
  | succ n ih => exact ih (h.step_matches S hab)

end Setting

/-- A method that is built, and whose objects of field accesses read no local,
    runs in the registers of a successful allocation as it runs with its variables
    kept by name. From registers that hold the receiver, the parameters and the
    locals that are live at the start, the two machines match after every number
    of steps, whatever surrounds them. -/
theorem allocate_preserves_runs {m m' : Method} {budget : Budget} {a : Allocation}
    (hb : m.Built) (hr : m.ReceiversReadNoLocal) (ha : allocate budget m = .ok a m')
    {ν ω : Type} (S : Surroundings ν ω) {names : String → ν} {registers : Nat → ν} (w : ω)
    (hi : Agrees m m' 0 names registers) (n : Nat) :
    Matches m m' ((m.byName S).run n (.running 0 names w))
      ((m'.inRegisters S).run n (.running 0 registers w)) := by
  obtain ⟨g, c, halloc⟩ := allocated_of_allocate_eq_ok ha
  have h : Setting m m' g c := ⟨hb.layout, hr, halloc⟩
  exact h.run_matches S n (.running w hi)

/-- Surroundings in which a field of an object and an element of an array are the
    object and the array themselves. -/
def transparent : Surroundings Int32 Unit where
  const v := v
  holds v := v ≠ 0
  not _ := none
  binary _ x y := some (x + y)
  call _ _ _ := none
  field o _ _ := some o
  setField _ _ _ _ := none
  element a _ _ := some a
  setElement _ _ _ _ := none
  name _ _ := none
  setName _ _ _ := none

/-- A method of a parameter `n` whose locals are live one after the other. -/
def doubling : Method :=
  Method.empty "twice" true |>.declareParam "n" |>.declareLocal "s" |>.declareLocal "t"
    |>.push (.assign (.var "s") (.binary (.arith .add) (.var "n") (.var "n")))
    |>.push (.assign (.var "t") (.single (.var "s")))
    |>.push (.ret (some (.var "t")))

theorem allocate_preserves_runs_doubling :
    let m' := after (allocate .minimal) doubling
    m'.slot "s" = m'.slot "t" ∧
      Matches doubling m' ((doubling.byName transparent).run 3 (.running 0 (fun _ => 4) ()))
        ((m'.inRegisters transparent).run 3 (.running 0 (fun _ => 4) ())) := by
  have hb : doubling.Built :=
    .push _ (.push _ (.push _ (.declareLocal _ (.declareLocal _ (.declareParam _ (.empty _ _))))))
  have hr : doubling.ReceiversReadNoLocal := by
    unfold ReceiversReadNoLocal
    decide +kernel
  obtain ⟨a, ha⟩ := eq_ok_of_succeeds (x := allocate .minimal) (s := doubling) (by decide +kernel)
  have hi : Agrees doubling (after (allocate .minimal) doubling) 0 (fun _ => (4 : Int32))
      (fun _ => 4) := fun _ _ _ => rfl
  exact ⟨by decide +kernel, allocate_preserves_runs hb hr ha transparent () hi 3⟩

/-! ## Objects in arrays -/

/-- The objects of field accesses are no locals themselves. -/
def ReceiversAreNoLocals (m : Method) : Prop :=
  ∀ i ∈ m.code, ∀ o ∈ i.receiver?, ∀ x ∈ o.var?, x ∉ m.locals

/-- Assignments store, and branches test, what computes a value. -/
def ComputesValues (m : Method) : Prop :=
  ∀ i ∈ m.code, ∀ value ∈ i.inner?, value.isValue

/-- A method that reads a field of an element of its local `a` after the last use
    of `a`. -/
def elementReceiver : Method :=
  Method.empty "f" true |>.declareLocal "a" |>.declareLocal "x"
    |>.push (.assign (.var "a") (.single (.const 1)))
    |>.push (.assign (.var "x") (.single (.const 2)))
    |>.push (.assign (.var "x") (.getField (.element "a" (.const 0)) "f"))
    |>.push (.ret (some (.var "x")))

/-- It does not suffice that the objects are no locals themselves. Where one is an
    element of a local, the local may lose its register to another one before: by
    name the method leaves with `1`, in one register with `2`. -/
theorem element_receiver_lost :
    elementReceiver.Built ∧ elementReceiver.ComputesValues ∧
      elementReceiver.ReceiversAreNoLocals ∧
    let m' := after (allocate (.atMost 1)) elementReceiver
    succeeds (allocate (.atMost 1)) elementReceiver ∧
      Agrees elementReceiver m' 0 (fun _ => (0 : Int32)) (fun _ => 0) ∧
      ((elementReceiver.byName transparent).run 4 (.running 0 (fun _ => 0) ())).left? =
        some (some 1, ()) ∧
      ((m'.inRegisters transparent).run 4 (.running 0 (fun _ => 0) ())).left? =
        some (some 2, ()) := by
  refine ⟨?_, ?_, ?_, by decide +kernel, fun _ _ _ => rfl, by decide +kernel, by decide +kernel⟩
  · exact .push _ (.push _ (.push _ (.push _ (.declareLocal _ (.declareLocal _ (.empty _ _))))))
  · unfold ComputesValues
    decide +kernel
  · unfold ReceiversAreNoLocals
    decide +kernel

end Method

end Midend
