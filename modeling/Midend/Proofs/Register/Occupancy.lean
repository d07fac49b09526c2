import Midend.Proofs.Code.Layout
import Midend.Proofs.Register.Outcome

/-!
# Which registers the variables occupy

Between its declarations a method may be allocated, with success or without, and be
declared further variables afterwards. Whatever the order of these calls, the
receiver and the parameters keep the reserved registers in order, and the locals
stay in as many registers after them as there are locals (`Arranged`): a parameter
moves all locals up by one, a local comes after the others, and an allocation packs
the locals without leaving a gap.

Until an allocation succeeds no two locals share a register (`Spread`), so that the
variables fill the registers from `0` on, one each.

* `Arranged.perform`, `Spread.perform`: what one call preserves;
* `calls_keep_register_layout`: the layout after any calls.
-/

namespace Midend.Method

variable {m m' : Method} {x : String}

/-! ## What a declaration writes -/

theorem declare_of_mem (hx : x ∈ m.table) (s : Scope) (r : Nat) : m.declare x s r = m := by
  have htable : m.table.insertIfNew x { scope := s, register := r } = m.table := by
    ext y : 1
    rw [Std.ExtTreeMap.getElem?_insertIfNew, if_neg fun h => h.2 hx]
  rw [declare, htable]

theorem declareParam_of_mem (hx : x ∈ m.table) : m.declareParam x = m := by
  rw [declareParam, if_pos hx]

theorem declareParam_of_not_mem (hx : x ∉ m.table) :
    m.declareParam x =
      { m.shiftLocals.declare x .parameter m.reserved with params := m.params ++ [x] } := by
  rw [declareParam, if_neg hx]

/-- A new parameter is in the register after the reserved ones, and the locals are in
    the one after theirs. -/
theorem getElem?_declareParam (hx : x ∉ m.table) (y : String) :
    (m.declareParam x).table[y]? =
      if x = y then some { scope := .parameter, register := m.reserved }
      else m.table[y]?.map fun v =>
        if v.scope = .localVar then { v with register := v.register + 1 } else v := by
  have hnew : x ∉ m.shiftLocals.table := by
    rwa [shiftLocals, Std.ExtTreeMap.mem_map]
  rw [declareParam_of_not_mem hx, getElem?_declare, getElem?_shiftLocals]
  simp only [hnew, not_false_eq_true, and_true]

/-- What is a local after a new parameter was one before, in the register below. -/
theorem exists_of_local_declareParam (hx : x ∉ m.table) {y : String} {v : Variable}
    (hv : (m.declareParam x).table[y]? = some v) (hs : v.scope = .localVar) :
    ∃ u, m.table[y]? = some u ∧ u.scope = .localVar ∧ v.register = u.register + 1 := by
  rw [getElem?_declareParam hx] at hv
  split at hv
  next =>
    cases hv
    cases hs
  next =>
    obtain ⟨u, hu, rfl⟩ := Option.map_eq_some_iff.1 hv
    by_cases hus : u.scope = .localVar
    · exact ⟨u, hu, hus, by rw [if_pos hus]⟩
    · rw [if_neg hus] at hs
      exact absurd hs hus

/-- A new variable has its role, and the others have theirs. -/
theorem scope?_declare (hx : x ∉ m.table) (s : Scope) (r : Nat) (y : String) :
    (m.declare x s r).scope? y = if x = y then some s else m.scope? y := by
  rw [scope?, getElem?_declare]
  simp only [hx, not_false_eq_true, and_true]
  split <;> rfl

theorem scope?_declareParam (hx : x ∉ m.table) (y : String) :
    (m.declareParam x).scope? y = if x = y then some .parameter else m.scope? y := by
  rw [scope?, getElem?_declareParam hx]
  split
  · rfl
  · rw [Option.map_map, scope?]
    congr 1
    funext v
    simp only [Function.comp_apply]
    split <;> rfl

theorem reserved_declareParam (hx : x ∉ m.table) :
    (m.declareParam x).reserved = m.reserved + 1 := by
  rw [declareParam_of_not_mem hx, reserved, reserved, List.length_append]
  rfl

/-- A new variable has no role before. -/
theorem scope?_ne_some (hx : x ∉ m.table) (s : Scope) : m.scope? x ≠ some s := by
  have hnone : m.table[x]? = none := by simpa using hx
  simp [scope?, hnone]

theorem scope?_of_fresh {s t : Scope} (hx : x ∉ m.table)
    (hscope : ∀ y, m'.scope? y = if x = y then some s else m.scope? y) {y : String}
    (hy : m.scope? y = some t) : m'.scope? y = some t := by
  rw [hscope, if_neg]
  · exact hy
  · rintro rfl
    exact scope?_ne_some hx t hy

/-! ## The number of locals -/

theorem length_locals_of_mem_iff {names : List String} (hnodup : names.Nodup)
    (h : ∀ y, y ∈ m.locals ↔ y ∈ names) : m.locals.length = names.length :=
  ((List.perm_ext_iff_of_nodup (Interference.nodup_locals m) hnodup).2 h).length_eq

theorem length_locals_eq (h : ∀ y, m'.scope? y = m.scope? y) :
    m'.locals.length = m.locals.length := by
  refine length_locals_of_mem_iff (Interference.nodup_locals m) fun y => ?_
  rw [mem_locals_iff_scope?, mem_locals_iff_scope?, h]

/-- There is one local more if the new variable is one. -/
theorem length_locals_of_fresh {s : Scope} (hx : x ∉ m.table)
    (hscope : ∀ y, m'.scope? y = if x = y then some s else m.scope? y) :
    m'.locals.length = m.locals.length + if s = .localVar then 1 else 0 := by
  have hfresh : x ∉ m.locals := fun h => hx (mem_table_of_mem_locals h)
  have hmem : ∀ y, y ∈ m'.locals ↔ s = .localVar ∧ y = x ∨ y ∈ m.locals := by
    intro y
    rw [mem_locals_iff_scope?, hscope, mem_locals_iff_scope?]
    rw [mem_locals_iff_scope?] at hfresh
    grind
  split
  next hs =>
    have hnodup : (x :: m.locals).Nodup :=
      List.nodup_cons.2 ⟨hfresh, Interference.nodup_locals m⟩
    refine length_locals_of_mem_iff hnodup fun y => ?_
    simp [hmem, hs]
  next hs =>
    refine length_locals_of_mem_iff (Interference.nodup_locals m) fun y => ?_
    simp [hmem, hs]

/-! ## Where the variables are -/

/-- The receiver and the parameters hold the reserved registers, in order, and the
    locals hold registers after them, within as many as there are locals. -/
structure Arranged (m : Method) : Prop where
  layout : m.Layout
  scope_this : m.isStatic = false → m.scope? "this" = some .receiver
  nodup_params : m.params.Nodup
  scope_of_mem_params : ∀ {x : String}, x ∈ m.params → m.scope? x = some .parameter
  localVar : ∀ {x : String} {v : Variable}, m.table[x]? = some v → v.scope = .localVar →
    m.reserved ≤ v.register ∧ v.register < m.reserved + m.locals.length

/-- No two locals share a register. -/
def Spread (m : Method) : Prop :=
  ∀ ⦃x y : String⦄ ⦃v w : Variable⦄, m.table[x]? = some v → m.table[y]? = some w →
    v.scope = .localVar → w.scope = .localVar → v.register = w.register → x = y

theorem arranged_empty (name : String) (isStatic : Bool) :
    (Method.empty name isStatic).Arranged ∧ (Method.empty name isStatic).Spread := by
  have hlocal : ∀ {y : String} {v : Variable},
      (Method.empty name isStatic).table[y]? = some v → v.scope ≠ .localVar := by
    intro y v hv
    cases isStatic with
    | true => simp [Method.empty] at hv
    | false =>
      rw [Method.empty, if_neg Bool.false_ne_true, getElem?_declare] at hv
      split at hv
      · cases hv
        decide
      · simp at hv
  refine ⟨⟨.empty name isStatic, ?_, ?_, ?_, fun hv hs => absurd hs (hlocal hv)⟩,
    fun x y v w hv hw hs => absurd hs (hlocal hv)⟩
  · intro hs
    cases isStatic with
    | true => cases hs
    | false => rw [Method.empty, if_neg Bool.false_ne_true, scope?_declare (by simp), if_pos rfl]
  · cases isStatic <;> exact List.nodup_nil
  · cases isStatic <;> exact fun h => absurd h List.not_mem_nil

namespace Arranged

variable (h : m.Arranged)
include h

theorem mem_table_of_mem_params (hx : x ∈ m.params) : x ∈ m.table := by
  by_contra hfresh
  exact scope?_ne_some hfresh _ (h.scope_of_mem_params hx)

/-- A new local is in the register after the others; a field is in none. -/
theorem declare {s : Scope} {r : Nat} (hr : s ≠ .receiver) (hp : s ≠ .parameter)
    (hl : s = .localVar → r = m.reserved + m.locals.length) : (m.declare x s r).Arranged := by
  by_cases hx : x ∈ m.table
  · rwa [declare_of_mem hx]
  have hscope := scope?_declare hx s r
  have hlength := length_locals_of_fresh hx hscope
  have hkeep : ∀ {y : String} {t : Scope}, m.scope? y = some t →
      (m.declare x s r).scope? y = some t := scope?_of_fresh hx hscope
  refine ⟨h.layout.declare hr hp, fun hs => hkeep (h.scope_this hs), h.nodup_params,
    fun hy => hkeep (h.scope_of_mem_params hy), fun {y v} hv hs => ?_⟩
  change m.reserved ≤ v.register ∧ v.register < m.reserved + _
  rw [hlength]
  rw [getElem?_declare] at hv
  split at hv
  · cases hv
    rw [if_pos hs, hl hs]
    dsimp only
    omega
  · have hbounds := h.localVar hv hs
    omega

theorem declareParam (x : String) : (m.declareParam x).Arranged := by
  by_cases hx : x ∈ m.table
  · rwa [declareParam_of_mem hx]
  have hscope := scope?_declareParam hx
  have hkeep : ∀ {y : String} {t : Scope}, m.scope? y = some t →
      (m.declareParam x).scope? y = some t := scope?_of_fresh hx hscope
  have hparams : (m.declareParam x).params = m.params ++ [x] := by
    rw [declareParam_of_not_mem hx]
  refine ⟨h.layout.declareParam x, fun hs => hkeep (h.scope_this ?_), ?_, fun {y} hy => ?_,
    fun {y v} hv hs => ?_⟩
  · rwa [declareParam_of_not_mem hx] at hs
  · rw [hparams, List.nodup_append_comm, List.singleton_append, List.nodup_cons]
    exact ⟨fun hmem => hx (h.mem_table_of_mem_params hmem), h.nodup_params⟩
  · rw [hparams, List.mem_append, List.mem_singleton] at hy
    rcases hy with hy | rfl
    · exact hkeep (h.scope_of_mem_params hy)
    · rw [hscope, if_pos rfl]
  · rw [reserved_declareParam hx, length_locals_of_fresh hx hscope]
    obtain ⟨u, hu, hus, hregister⟩ := exists_of_local_declareParam hx hv hs
    have hbounds := h.localVar hu hus
    omega

/-- An allocation leaves no gap between the registers of the locals, so that it uses
    no more of them than there are locals. -/
theorem allocated {g : FlowGraph} {c : Coloring} (ha : Allocated m m' g c) : m'.Arranged := by
  have hlength : m'.locals.length = m.locals.length := length_locals_eq ha.rewritten.scope_eq
  have hused : c.used ≤ m.locals.length := by
    rw [← ha.card_localRegisters, ← hlength]
    exact (List.toFinset_card_le _).trans (List.length_filterMap_le _ _)
  have hstatic : m'.isStatic = m.isStatic := by rw [ha.rewritten.eq_table]
  have hparams : m'.params = m.params := by rw [ha.rewritten.eq_table]
  have hreserved : m'.reserved = m.reserved := by rw [reserved, reserved, hstatic, hparams]
  -- Of what is no local, nothing has changed.
  have hother : ∀ {y : String} {v : Variable}, m'.table[y]? = some v → v.scope ≠ .localVar →
      m.table[y]? = some v := by
    intro y v hv hs
    rw [← ha.getElem?_of_not_local (x := y)]
    · exact hv
    · rw [mem_locals_iff_scope?, ← ha.rewritten.scope_eq, scope?, hv]
      simpa using hs
  refine ⟨⟨fun hv hs => ?_, fun hv hs => ?_⟩, fun hs => ?_, hparams ▸ h.nodup_params,
    fun {y} hy => ?_, fun {y v} hv hs => ?_⟩
  · rw [hstatic]
    exact h.layout.receiver (hother hv (by rw [hs]; decide)) hs
  · rw [hparams, firstParam, hstatic]
    exact h.layout.parameter (hother hv (by rw [hs]; decide)) hs
  · rw [ha.rewritten.scope_eq]
    exact h.scope_this (hstatic ▸ hs)
  · rw [ha.rewritten.scope_eq]
    exact h.scope_of_mem_params (hparams ▸ hy)
  · have hy : y ∈ m.locals := by
      rw [mem_locals_iff_scope?, ← ha.rewritten.scope_eq, scope?, hv, Option.map_some, hs]
    obtain ⟨color, hcolor, hregister⟩ := ha.register_local hy
    rw [register?, hv, Option.map_some, Option.some.injEq] at hregister
    have hlt : color < c.used := Coloring.lt_used_iff.2 ⟨y, color, hcolor, Nat.le_refl color⟩
    rw [hreserved, hlength, hregister]
    omega

end Arranged

namespace Spread

variable (hs : m.Spread)
include hs

theorem declareParam (x : String) : (m.declareParam x).Spread := by
  by_cases hx : x ∈ m.table
  · rwa [declareParam_of_mem hx]
  intro y z v w hv hw hvs hws he
  obtain ⟨v', hv', hvs', hvr⟩ := exists_of_local_declareParam hx hv hvs
  obtain ⟨w', hw', hws', hwr⟩ := exists_of_local_declareParam hx hw hws
  exact hs hv' hw' hvs' hws' (by omega)

theorem declare (h : m.Arranged) {s : Scope} {r : Nat}
    (hl : s = .localVar → r = m.reserved + m.locals.length) : (m.declare x s r).Spread := by
  -- The new local is in a register above those of the others.
  have hnew : ∀ {y : String} {v w : Variable}, m.table[y]? = some v → v.scope = .localVar →
      w = { scope := s, register := r } → w.scope = .localVar → v.register ≠ w.register := by
    rintro y v w hv hvs rfl hws
    have hbounds := h.localVar hv hvs
    rw [hl hws]
    exact Nat.ne_of_lt hbounds.2
  intro y z v w hv hw hvs hws he
  rw [getElem?_declare] at hv hw
  split at hv <;> split at hw
  next hy hz => rw [← hy.1, ← hz.1]
  next => exact absurd he.symm (hnew hw hws (Option.some.inj hv).symm hvs)
  next => exact absurd he (hnew hv hvs (Option.some.inj hw).symm hws)
  next => exact hs hv hw hvs hws he

end Spread

/-! ## Registers that are held -/

namespace Arranged

variable (h : m.Arranged)
include h

theorem mem_params_iff : x ∈ m.params ↔ m.scope? x = some .parameter := by
  refine ⟨h.scope_of_mem_params, fun hscope => ?_⟩
  obtain ⟨v, hv, hs⟩ := Option.map_eq_some_iff.1 hscope
  obtain ⟨j, hj, -⟩ := h.layout.parameter hv hs
  exact List.mem_of_getElem? hj

theorem register?_param {j : Nat} (hj : m.params[j]? = some x) :
    m.register? x = some (m.firstParam + j) := by
  obtain ⟨v, hv, hs⟩ :=
    Option.map_eq_some_iff.1 (h.scope_of_mem_params (List.mem_of_getElem? hj))
  obtain ⟨k, hk, hr⟩ := h.layout.parameter hv hs
  obtain rfl : j = k := (List.getElem?_inj (List.getElem?_eq_some_iff.1 hj).1
    h.nodup_params).1 (hj.trans hk.symm)
  rw [register?, hv, Option.map_some, hr]

theorem getElem?_this (hs : m.isStatic = false) :
    m.table["this"]? = some { scope := .receiver, register := 0 } := by
  obtain ⟨⟨scope, register⟩, hv, hscope⟩ := Option.map_eq_some_iff.1 (h.scope_this hs)
  obtain ⟨-, -, hr⟩ := h.layout.receiver hv hscope
  rw [hv]
  simp_all

theorem register?_local (hx : x ∈ m.locals) :
    ∃ r, m.register? x = some r ∧ m.reserved ≤ r ∧ r < m.reserved + m.locals.length := by
  obtain ⟨v, hv, hs⟩ := mem_locals.1 hx
  exact ⟨v.register, by rw [register?, hv, Option.map_some], h.localVar hv hs⟩

/-- A register is reserved for the receiver or for a parameter. -/
theorem exists_of_lt_reserved {r : Nat} (hr : r < m.reserved) :
    ∃ x, m.holdsRegister x ∧ m.register? x = some r := by
  by_cases hthis : m.isStatic = false ∧ r = 0
  · have hv := h.getElem?_this hthis.1
    exact ⟨"this", by simp [holdsRegister, hv], by simp [register?, hv, hthis.2]⟩
  · have hfirst : m.firstParam ≤ r ∧ r - m.firstParam < m.params.length := by
      rw [reserved] at hr
      rw [firstParam]
      cases hstatic : m.isStatic <;> simp [hstatic] at hthis hr ⊢ <;> omega
    obtain ⟨x, hx⟩ : ∃ x, m.params[r - m.firstParam]? = some x :=
      ⟨_, List.getElem?_eq_getElem hfirst.2⟩
    have hscope := h.scope_of_mem_params (List.mem_of_getElem? hx)
    refine ⟨x, holdsRegister_iff.2 ⟨_, hscope, by decide⟩, ?_⟩
    rw [h.register?_param hx]
    congr 1
    omega

end Arranged

theorem Spread.eq_of_register?_eq (hs : m.Spread) {y : String} (hx : x ∈ m.locals)
    (hy : y ∈ m.locals) (he : m.register? x = m.register? y) : x = y := by
  obtain ⟨v, hv, hvs⟩ := mem_locals.1 hx
  obtain ⟨w, hw, hws⟩ := mem_locals.1 hy
  rw [register?, hv, register?, hw, Option.map_some, Option.map_some, Option.some.injEq] at he
  exact hs hv hw hvs hws he

/-- As many different registers as there are locals fill the room for them. -/
theorem Spread.exists_local (hs : m.Spread) (h : m.Arranged) {r : Nat} (hr : m.reserved ≤ r)
    (hlt : r < m.reserved + m.locals.length) : ∃ x ∈ m.locals, m.register? x = some r := by
  let place (x : String) : Nat := (m.register? x).getD 0 - m.reserved
  have hplace : ∀ x ∈ m.locals, m.register? x = some (m.reserved + place x) ∧
      place x < m.locals.length := by
    intro x hx
    obtain ⟨r, hr, hle, hlt⟩ := h.register?_local hx
    have hp : place x = r - m.reserved := by simp only [place, hr, Option.getD_some]
    refine ⟨?_, by omega⟩
    rw [hr, hp]
    congr 1
    omega
  have hsurj := Finset.surjOn_of_injOn_of_card_le (s := m.locals.toFinset)
    (t := Finset.range m.locals.length) place ?_ ?_ ?_
  · obtain ⟨x, hx, hxr⟩ := hsurj (Finset.mem_coe.2 (Finset.mem_range.2
      (show r - m.reserved < m.locals.length by omega)))
    have hx := List.mem_toFinset.1 (Finset.mem_coe.1 hx)
    refine ⟨x, hx, ?_⟩
    rw [(hplace x hx).1, hxr]
    congr 1
    omega
  · intro x hx
    exact Finset.mem_coe.2 (Finset.mem_range.2 (hplace x (List.mem_toFinset.1 hx)).2)
  · intro x hx y hy hxy
    have hx := List.mem_toFinset.1 (Finset.mem_coe.1 hx)
    have hy := List.mem_toFinset.1 (Finset.mem_coe.1 hy)
    exact hs.eq_of_register?_eq hx hy (by rw [(hplace x hx).1, (hplace y hy).1, hxy])
  · rw [Finset.card_range, List.toFinset_card_of_nodup (Interference.nodup_locals m)]

/-- The variables fill the registers from `0` on. -/
theorem Spread.exists_holder_iff (hs : m.Spread) (h : m.Arranged) {r : Nat} :
    (∃ x, m.holdsRegister x ∧ m.register? x = some r) ↔ r < m.reserved + m.locals.length := by
  constructor
  · rintro ⟨x, hx, hr⟩
    obtain ⟨s, hscope, hs⟩ := holdsRegister_iff.1 hx
    obtain ⟨v, hv, rfl⟩ := Option.map_eq_some_iff.1 hscope
    rw [register?, hv, Option.map_some, Option.some.injEq] at hr
    cases hvs : v.scope with
    | localVar => exact hr ▸ (h.localVar hv hvs).2
    | parameter => exact Nat.lt_add_right _ (hr ▸ h.layout.register_lt hv (.inr hvs))
    | receiver => exact Nat.lt_add_right _ (hr ▸ h.layout.register_lt hv (.inl hvs))
    | field => exact absurd hvs hs
  · intro hlt
    rcases Nat.lt_or_ge r m.reserved with hr | hr
    · exact h.exists_of_lt_reserved hr
    · obtain ⟨x, hx, hxr⟩ := hs.exists_local h hr hlt
      exact ⟨x, holdsRegister_iff.2 ⟨_, mem_locals_iff_scope?.1 hx, by decide⟩, hxr⟩

/-! ## Calls in a row -/

/-- A call that builds a method or allocates its registers. -/
inductive Call
  | declareParam (name : String)
  | declareLocal (name : String)
  | declareField (name : String)
  | label (name : String)
  | push (instruction : Instruction)
  | allocate (budget : Budget)

/-- The method after a call, which may be an allocation that fails. -/
def perform (m : Method) : Call → Method
  | .declareParam name => m.declareParam name
  | .declareLocal name => m.declareLocal name
  | .declareField name => m.declareField name
  | .label name => m.label name
  | .push instruction => m.push instruction
  | .allocate budget => after (allocate budget) m

/-- Whether a call is an allocation that succeeds. -/
def allocates (m : Method) : Call → Bool
  | .allocate budget => succeeds (allocate budget) m
  | _ => false

/-- The method after calls, each made in what the one before has left. -/
def performAll (m : Method) (calls : List Call) : Method := calls.foldl perform m

/-- Whether one of the calls is an allocation that succeeds when its turn comes. -/
def allocatesAmong : Method → List Call → Bool
  | _, [] => false
  | m, call :: calls => m.allocates call || (m.perform call).allocatesAmong calls

theorem Arranged.perform (h : m.Arranged) (call : Call) : (m.perform call).Arranged := by
  have hsame : ∀ {m' : Method}, m' = { m with code := m'.code, labels := m'.labels } →
      m'.Arranged := by
    rintro m' he
    rw [he]
    exact ⟨⟨h.layout.receiver, h.layout.parameter⟩, h.scope_this, h.nodup_params,
      h.scope_of_mem_params, h.localVar⟩
  cases call with
  | declareParam name => exact h.declareParam name
  | declareLocal name => exact h.declare (by decide) (by decide) fun _ => rfl
  | declareField name => exact h.declare (by decide) (by decide) fun hs => by cases hs
  | label name => exact hsame rfl
  | push instruction => exact hsame rfl
  | allocate budget =>
    rw [Method.perform, after]
    split
    next a m' ha =>
      obtain ⟨g, c, halloc⟩ := allocated_of_allocate_eq_ok ha
      exact h.allocated halloc
    next e m' ha => exact (of_allocate_eq_error ha).1 ▸ h

theorem Spread.perform (hs : m.Spread) (h : m.Arranged) {call : Call}
    (hcall : m.allocates call = false) : (m.perform call).Spread := by
  cases call with
  | declareParam name => exact hs.declareParam name
  | declareLocal name => exact hs.declare h fun _ => rfl
  | declareField name => exact hs.declare h fun hs => by cases hs
  | label name => exact hs
  | push instruction => exact hs
  | allocate budget =>
    rw [Method.perform, after]
    split
    next a m' ha => simp [allocates, succeeds, ha] at hcall
    next e m' ha => exact (of_allocate_eq_error ha).1 ▸ hs

theorem Arranged.performAll (h : m.Arranged) (calls : List Call) :
    (m.performAll calls).Arranged := by
  induction calls generalizing m with
  | nil => exact h
  | cons call calls ih => exact ih (h.perform call)

theorem Spread.performAll (hs : m.Spread) (h : m.Arranged) {calls : List Call}
    (hcalls : m.allocatesAmong calls = false) : (m.performAll calls).Spread := by
  induction calls generalizing m with
  | nil => exact hs
  | cons call calls ih =>
    rw [allocatesAmong, Bool.or_eq_false_iff] at hcalls
    exact ih (hs.perform h hcalls.1) (h.perform call) hcalls.2

theorem isStatic_perform (m : Method) (call : Call) : (m.perform call).isStatic = m.isStatic := by
  cases call with
  | declareParam name =>
    rw [perform, declareParam]
    split <;> rfl
  | allocate budget =>
    rw [perform, after]
    split
    next a m' ha =>
      obtain ⟨g, c, halloc⟩ := allocated_of_allocate_eq_ok ha
      rw [halloc.rewritten.eq_table]
    next e m' ha => rw [(of_allocate_eq_error ha).1]
  | _ => rfl

theorem isStatic_performAll (m : Method) (calls : List Call) :
    (m.performAll calls).isStatic = m.isStatic := by
  induction calls generalizing m with
  | nil => rfl
  | cons call calls ih => exact (ih (m.perform call)).trans (isStatic_perform m call)

/-- After any calls, in any order, the receiver of an instance method is in register
    `0`, the parameters are listed once each and hold the registers after it in order,
    and each local is in one of as many registers after them as there are locals. If no
    allocation has succeeded, the locals are in different registers, and the variables
    that are no fields hold all of these registers. -/
theorem calls_keep_register_layout (name : String) (isStatic : Bool) (calls : List Call) :
    let m := (Method.empty name isStatic).performAll calls
    (isStatic = false → m.table["this"]? = some { scope := .receiver, register := 0 }) ∧
    m.params.Nodup ∧ (∀ x, x ∈ m.params ↔ m.scope? x = some .parameter) ∧
    (∀ j x, m.params[j]? = some x → m.register? x = some (if isStatic then j else j + 1)) ∧
    (∀ x ∈ m.locals, ∃ r, m.register? x = some r ∧ m.reserved ≤ r ∧
      r < m.reserved + m.locals.length) ∧
    ((Method.empty name isStatic).allocatesAmong calls = false →
      (∀ x ∈ m.locals, ∀ y ∈ m.locals, m.register? x = m.register? y → x = y) ∧
      ∀ r, (∃ x, m.holdsRegister x ∧ m.register? x = some r) ↔
        r < m.reserved + m.locals.length) := by
  intro m
  obtain ⟨harranged, hspread⟩ := arranged_empty name isStatic
  have h : m.Arranged := harranged.performAll calls
  have hstatic : m.isStatic = isStatic := by
    rw [isStatic_performAll]
    cases isStatic <;> rfl
  refine ⟨fun hs => h.getElem?_this (hstatic.trans hs), h.nodup_params, fun x => h.mem_params_iff,
    fun j x hj => ?_, fun x => h.register?_local, fun hcalls => ?_⟩
  · rw [h.register?_param hj, firstParam, hstatic]
    cases isStatic <;> simp [Nat.add_comm]
  · have hs : m.Spread := hspread.performAll harranged hcalls
    exact ⟨fun x hx y hy => hs.eq_of_register?_eq hx hy, fun r => hs.exists_holder_iff h⟩

/-- Parameters that are declared after locals, one of them under the name of a local,
    and an allocation that fails. -/
def lateParams : List Call :=
  [.declareLocal "t", .declareLocal "u", .declareParam "p", .declareParam "t",
    .allocate (.atMost 1), .declareField "f", .declareParam "q"]

/-- The locals share a register when an allocation succeeds, and a local that is
    declared afterwards is still after the reserved registers. -/
theorem calls_keep_register_layout_lateParams :
    let m := (Method.empty "f" false).performAll lateParams
    let m' := (Method.empty "f" false).performAll
      (lateParams ++ [.allocate .minimal, .declareLocal "w"])
    (Method.empty "f" false).allocatesAmong lateParams = false ∧
      m.params = ["p", "q"] ∧ m.register? "q" = some 2 ∧
      (∀ r, (∃ x, m.holdsRegister x ∧ m.register? x = some r) ↔ r < 5) ∧
      m'.register? "t" = m'.register? "u" ∧
      ∃ r, m'.register? "w" = some r ∧ 3 ≤ r ∧ r < 6 := by
  intro m m'
  obtain ⟨-, -, -, hparams, -, hfree⟩ := calls_keep_register_layout "f" false lateParams
  obtain ⟨-, -, -, -, hlocals, -⟩ := calls_keep_register_layout "f" false
    (lateParams ++ [.allocate .minimal, .declareLocal "w"])
  have hnone : (Method.empty "f" false).allocatesAmong lateParams = false := by decide +kernel
  have hroom : m.reserved + m.locals.length = 5 := by decide +kernel
  have hroom' : m'.reserved = 3 ∧ m'.locals.length = 3 := by decide +kernel
  obtain ⟨r, hr, hle, hlt⟩ := hlocals "w" (by decide +kernel)
  refine ⟨hnone, by decide +kernel, hparams 1 "q" (by decide +kernel), fun r => ?_,
    by decide +kernel, r, hr, ?_, ?_⟩
  · rw [← hroom]
    exact (hfree hnone).2 r
  · exact hroom'.1 ▸ hle
  · rwa [hroom'.1, hroom'.2] at hlt

end Midend.Method
