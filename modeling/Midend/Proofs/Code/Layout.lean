import Midend.Code.Method

/-!
# The layout of registers

A method is *built* from the empty one by declaring variables, appending
instructions and placing labels. In a method that is built, the receiver holds
register `0` and the parameters hold the registers after it, in order; so the
reserved registers are held by one variable each.
-/

namespace Midend.Method

/-- The method is made by declarations, instructions and labels. -/
inductive Built : Method → Prop
  | empty (name : String) (isStatic : Bool) : Built (.empty name isStatic)
  | declareParam {m : Method} (x : String) : Built m → Built (m.declareParam x)
  | declareLocal {m : Method} (x : String) : Built m → Built (m.declareLocal x)
  | declareField {m : Method} (x : String) : Built m → Built (m.declareField x)
  | label {m : Method} (l : String) : Built m → Built (m.label l)
  | push {m : Method} (i : Instruction) : Built m → Built (m.push i)

/-- The register of the first parameter. -/
def firstParam (m : Method) : Nat := if m.isStatic then 0 else 1

/-- Where the receiver and the parameters are held. -/
structure Layout (m : Method) : Prop where
  receiver : ∀ {x : String} {v : Variable}, m.table[x]? = some v → v.scope = .receiver →
    x = "this" ∧ m.isStatic = false ∧ v.register = 0
  parameter : ∀ {x : String} {v : Variable}, m.table[x]? = some v → v.scope = .parameter →
    ∃ j, m.params[j]? = some x ∧ v.register = m.firstParam + j

theorem getElem?_declare (m : Method) (x : String) (s : Scope) (r : Nat) (y : String) :
    (m.declare x s r).table[y]? =
      if x = y ∧ x ∉ m.table then some { scope := s, register := r } else m.table[y]? := by
  rw [declare, Std.ExtTreeMap.getElem?_insertIfNew]
  simp

theorem getElem?_shiftLocals (m : Method) (x : String) :
    m.shiftLocals.table[x]? = m.table[x]?.map fun v =>
      if v.scope = .localVar then { v with register := v.register + 1 } else v := by
  rw [shiftLocals, Std.ExtTreeMap.getElem?_map]

/-- A declaration in another role changes nothing of the layout. -/
theorem Layout.declare {m : Method} (h : m.Layout) {x : String} {s : Scope} {r : Nat}
    (hr : s ≠ .receiver) (hp : s ≠ .parameter) : (m.declare x s r).Layout where
  receiver {y v} hv hs := by
    rw [getElem?_declare] at hv
    split at hv
    · cases hv
      exact absurd hs hr
    · exact h.receiver hv hs
  parameter {y v} hv hs := by
    rw [getElem?_declare] at hv
    split at hv
    · cases hv
      exact absurd hs hp
    · exact h.parameter hv hs

theorem Layout.empty (name : String) (isStatic : Bool) : (Method.empty name isStatic).Layout := by
  have hnone : ∀ {x : String} {v : Variable},
      (∅ : Std.ExtTreeMap String Variable)[x]? ≠ some v := by simp
  cases isStatic with
  | true => exact ⟨fun hv => absurd hv hnone, fun hv => absurd hv hnone⟩
  | false =>
    have htable : ∀ {x : String} {v : Variable}, (Method.empty name false).table[x]? = some v →
        x = "this" ∧ v = { scope := .receiver, register := 0 } := by
      intro x v hv
      rw [Method.empty, if_neg Bool.false_ne_true, getElem?_declare] at hv
      split at hv
      next hx =>
        cases hv
        exact ⟨hx.1.symm, rfl⟩
      next => exact absurd hv hnone
    refine ⟨fun hv _ => ?_, fun hv hs => ?_⟩
    · obtain ⟨rfl, rfl⟩ := htable hv
      exact ⟨rfl, rfl, rfl⟩
    · obtain ⟨rfl, rfl⟩ := htable hv
      cases hs

/-- A new parameter holds the register after the reserved ones. -/
theorem Layout.declareParam {m : Method} (h : m.Layout) (x : String) :
    (m.declareParam x).Layout := by
  rw [Method.declareParam]
  split
  next => exact h
  next hx =>
    -- What is in the table afterwards is the parameter, or was there before up to its register.
    have htable : ∀ {y : String} {v : Variable},
        (m.shiftLocals.declare x .parameter m.reserved).table[y]? = some v →
        (y = x ∧ v = { scope := .parameter, register := m.reserved }) ∨
          ∃ u, m.table[y]? = some u ∧ v.scope = u.scope ∧
            (u.scope ≠ .localVar → v.register = u.register) := by
      intro y v hv
      rw [getElem?_declare] at hv
      split at hv
      next hy =>
        cases hv
        exact .inl ⟨hy.1.symm, rfl⟩
      next =>
        rw [getElem?_shiftLocals, Option.map_eq_some_iff] at hv
        obtain ⟨u, hu, rfl⟩ := hv
        refine .inr ⟨u, hu, ?_, fun hs => ?_⟩
        · split <;> rfl
        · rw [if_neg hs]
    refine ⟨fun {y v} hv hs => ?_, fun {y v} hv hs => ?_⟩
    · rcases htable hv with ⟨_, rfl⟩ | ⟨u, hu, hscope, hreg⟩
      · cases hs
      · rw [hscope] at hs
        obtain ⟨hy, hstatic, hzero⟩ := h.receiver hu hs
        exact ⟨hy, hstatic, by rw [hreg (by rw [hs]; decide), hzero]⟩
    · rcases htable hv with ⟨rfl, rfl⟩ | ⟨u, hu, hscope, hreg⟩
      · exact ⟨m.params.length, by simp, rfl⟩
      · rw [hscope] at hs
        obtain ⟨j, hj, hr⟩ := h.parameter hu hs
        refine ⟨j, ?_, by rw [hreg (by rw [hs]; decide), hr]; rfl⟩
        rw [List.getElem?_append_left (List.getElem?_eq_some_iff.1 hj).1]
        exact hj

/-- The layout of a method that is built. -/
theorem Built.layout {m : Method} (h : m.Built) : m.Layout := by
  induction h with
  | empty name isStatic => exact .empty name isStatic
  | declareParam x _ ih => exact ih.declareParam x
  | declareLocal x _ ih => exact ih.declare (by decide) (by decide)
  | declareField x _ ih => exact ih.declare (by decide) (by decide)
  | label l _ ih => exact ⟨ih.receiver, ih.parameter⟩
  | push i _ ih => exact ⟨ih.receiver, ih.parameter⟩

namespace Layout

variable {m : Method} (h : m.Layout)
include h

/-- The registers of the receiver and the parameters are the reserved ones. -/
theorem register_lt {x : String} {v : Variable} (hv : m.table[x]? = some v)
    (hs : v.scope = .receiver ∨ v.scope = .parameter) : v.register < m.reserved := by
  rcases hs with hs | hs
  · obtain ⟨_, hstatic, hzero⟩ := h.receiver hv hs
    rw [hzero, reserved, hstatic]
    exact Nat.add_pos_left Nat.one_pos _
  · obtain ⟨j, hj, hr⟩ := h.parameter hv hs
    rw [hr]
    exact Nat.add_lt_add_left (List.getElem?_eq_some_iff.1 hj).1 _

/-- No two of the receiver and the parameters share a register. -/
theorem eq_of_register_eq {x y : String} {v w : Variable} (hv : m.table[x]? = some v)
    (hw : m.table[y]? = some w) (hsv : v.scope = .receiver ∨ v.scope = .parameter)
    (hsw : w.scope = .receiver ∨ w.scope = .parameter) (he : v.register = w.register) : x = y := by
  -- A parameter of an instance method comes after the receiver.
  have hne : ∀ {x y : String} {v w : Variable}, m.table[x]? = some v → m.table[y]? = some w →
      v.scope = .receiver → w.scope = .parameter → v.register ≠ w.register := by
    intro x y v w hv hw hsv hsw
    obtain ⟨_, hstatic, hzero⟩ := h.receiver hv hsv
    obtain ⟨j, _, hr⟩ := h.parameter hw hsw
    rw [hzero, hr, firstParam, hstatic, if_neg Bool.false_ne_true]
    omega
  rcases hsv with hsv | hsv <;> rcases hsw with hsw | hsw
  · rw [(h.receiver hv hsv).1, (h.receiver hw hsw).1]
  · exact absurd he (hne hv hw hsv hsw)
  · exact absurd he.symm (hne hw hv hsw hsv)
  · obtain ⟨j, hj, hrj⟩ := h.parameter hv hsv
    obtain ⟨k, hk, hrk⟩ := h.parameter hw hsw
    have hjk : j = k := by omega
    rw [hjk, hk] at hj
    exact (Option.some.inj hj).symm

end Layout

end Midend.Method
