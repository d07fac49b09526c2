import Midend.Pipeline
import Midend.Proofs.Register.Outcome

/-!
# Allocating several methods

Methods are allocated one after the other. Each is allocated as it would be alone,
since an allocation looks at no other method, and the first that fails ends the
matter: its error is the result, and it is left as it was, like the methods after it,
while those before it have their registers already.

* `allocateAll_append`: methods that can be allocated, and others after them;
* `methods_allocated_up_to_failure`: what becomes of any methods.
-/

namespace Midend.Method

variable {budget : Budget} {m : Method} {ms : List Method} {as : List Allocation}

/-- The method can be allocated alone, with this result. -/
def AllocatesTo (budget : Budget) (m : Method) (a : Allocation) : Prop :=
  allocate budget m = .ok a (after (allocate budget) m)

theorem exists_allocatesTo (h : ∀ m ∈ ms, succeeds (allocate budget) m) :
    ∃ as, List.Forall₂ (AllocatesTo budget) ms as := by
  induction ms with
  | nil => exact ⟨[], .nil⟩
  | cons m ms ih =>
    obtain ⟨a, ha⟩ := eq_ok_of_succeeds (h m List.mem_cons_self)
    obtain ⟨as, has⟩ := ih fun m hm => h m (List.mem_cons_of_mem _ hm)
    exact ⟨a :: as, .cons ha has⟩

theorem allocateAll_cons_of_error {e : Error} (h : allocate budget m = .error e m) :
    allocateAll budget (m :: ms) = (.error e, m :: ms) := by
  simp only [allocateAll, h]

/-- Methods that can be allocated alone are so before all others, whatever these are. -/
theorem allocateAll_append (h : List.Forall₂ (AllocatesTo budget) ms as) (rest : List Method) :
    allocateAll budget (ms ++ rest) =
      ((allocateAll budget rest).1.map (as ++ ·),
        ms.map (after (allocate budget)) ++ (allocateAll budget rest).2) := by
  induction h with
  | nil =>
    rw [List.nil_append]
    rcases allocateAll budget rest with ⟨_ | _, _⟩ <;> rfl
  | @cons m a ms as hm _ ih =>
    have hm : allocate budget m = .ok a (after (allocate budget) m) := hm
    simp only [List.cons_append, allocateAll, hm, ih, List.map_cons]
    rcases allocateAll budget rest with ⟨_ | _, _⟩ <;> rfl

theorem exists_error_of_not_succeeds (h : ¬ succeeds (allocate budget) m) :
    ∃ e, allocate budget m = .error e m := by
  cases hm : allocate budget m with
  | ok a m' => simp [succeeds, hm] at h
  | error e m' =>
    obtain rfl : m' = m := (of_allocate_eq_error hm).1
    exact ⟨e, rfl⟩

/-- If each of the methods can be allocated alone, all of them are, with the results in
    order, and each is rewritten as it would be alone. Otherwise the error of the first
    that cannot be allocated is the result; the methods before it are rewritten as they
    would be alone, and it and those after it are as they were. -/
theorem methods_allocated_up_to_failure {s : Settings} (hs : s.registers = some budget)
    (methods : List Method) :
    match methods.findIdx? (fun m => !succeeds (allocate budget) m) with
    | none => ∃ as, List.Forall₂ (AllocatesTo budget) methods as ∧
        s.optimizeCode methods = (.ok as, methods.map (after (allocate budget)))
    | some j => ∃ m e, methods[j]? = some m ∧ allocate budget m = .error e m ∧
        s.optimizeCode methods =
          (.error e, (methods.take j).map (after (allocate budget)) ++ methods.drop j) := by
  have hcode : s.optimizeCode methods = allocateAll budget methods := by
    rw [Settings.optimizeCode, hs]
  rw [hcode]
  cases hj : methods.findIdx? (fun m => !succeeds (allocate budget) m) with
  | none =>
    have hsucceed : ∀ m ∈ methods, succeeds (allocate budget) m := fun m hm => by
      simpa using List.findIdx?_eq_none_iff.1 hj m hm
    obtain ⟨as, has⟩ := exists_allocatesTo hsucceed
    have hall := allocateAll_append has []
    rw [List.append_nil] at hall
    refine ⟨as, has, hall.trans ?_⟩
    simp [allocateAll, Except.map]
  | some j =>
    obtain ⟨hlt, hfails, hbefore⟩ := List.findIdx?_eq_some_iff_getElem.1 hj
    have hsucceed : ∀ m ∈ methods.take j, succeeds (allocate budget) m := fun m hm => by
      obtain ⟨i, hi, rfl⟩ := List.mem_take_iff_getElem.1 hm
      simpa using hbefore i (by omega)
    obtain ⟨as, has⟩ := exists_allocatesTo hsucceed
    obtain ⟨e, he⟩ := exists_error_of_not_succeeds (m := methods[j]) (by simpa using hfails)
    refine ⟨methods[j], e, List.getElem?_eq_getElem hlt, he, ?_⟩
    have hall := allocateAll_append has (methods.drop j)
    rw [List.take_append_drop, List.drop_eq_getElem_cons hlt, allocateAll_cons_of_error he] at hall
    rw [hall, List.drop_eq_getElem_cons hlt]
    rfl

/-- The second of three methods jumps astray. The first has its new registers by then, and
    the third keeps its old ones. Without the second one all is well. -/
theorem methods_allocated_up_to_failure_lostJump :
    let s : Settings := { registers := some (.atMost 4) }
    let m := Interference.vainAssignment
    let rewritten := after (allocate (.atMost 4))
    (∃ e, allocate (.atMost 4) lostJump = .error e lostJump ∧
      s.optimizeCode [chainedSums, lostJump, m] =
        (.error e, [rewritten chainedSums, lostJump, m])) ∧
    (∃ a b, AllocatesTo (.atMost 4) chainedSums a ∧ AllocatesTo (.atMost 4) m b ∧
      s.optimizeCode [chainedSums, m] = (.ok [a, b], [rewritten chainedSums, rewritten m])) ∧
    (rewritten chainedSums).register? "c" ≠ chainedSums.register? "c" ∧
      (rewritten m).register? "a" ≠ m.register? "a" := by
  intro s m rewritten
  have hfails := methods_allocated_up_to_failure (s := s) rfl [chainedSums, lostJump, m]
  have hall := methods_allocated_up_to_failure (s := s) rfl [chainedSums, m]
  have hsums : succeeds (allocate (.atMost 4)) chainedSums := by decide +kernel
  have hlost : ¬ succeeds (allocate (.atMost 4)) lostJump := by decide +kernel
  have hm : succeeds (allocate (.atMost 4)) m := by decide +kernel
  rw [show List.findIdx? _ _ = some 1 by simp [List.findIdx?_cons, hsums, hlost]] at hfails
  rw [show List.findIdx? _ _ = none by simp [List.findIdx?_cons, hsums, hm]] at hall
  refine ⟨?_, ?_, by decide +kernel, by decide +kernel⟩
  · obtain ⟨_, e, hm, he, hcode⟩ := hfails
    cases hm
    exact ⟨e, he, hcode⟩
  · obtain ⟨as, has, hcode⟩ := hall
    cases has with
    | cons ha hrest =>
      cases hrest with
      | cons hb hnil =>
        cases hnil
        exact ⟨_, _, ha, hb, hcode⟩

end Midend.Method
