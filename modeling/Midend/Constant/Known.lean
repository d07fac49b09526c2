import Std.Data.ExtTreeMap
import Midend.Literal

/-!
# Known constants

The variables whose value is known at a point of a method, on every path that
leads there, each with its value. A variable that is not listed may hold
anything.
-/

namespace Midend

/-- The known values of variables. -/
abbrev Known := Std.ExtTreeMap String Literal

namespace Known

/-- What is known at the head of a method, whatever was known before. -/
def clear (_ : Known) : Known := ∅

/-- What is known where two paths meet: the bindings on which both agree. -/
def meet (a b : Known) : Known := a.filter fun x l => b[x]? = some l

/-- A binding survives where two paths meet exactly if it holds on both. -/
theorem getElem?_meet_eq_some_iff {a b : Known} {x : String} {l : Literal} :
    (a.meet b)[x]? = some l ↔ a[x]? = some l ∧ b[x]? = some l := by
  rw [meet, Std.ExtTreeMap.getElem?_filter']
  cases a[x]? <;> simp [Option.filter_some]
  grind

/-- What is known when the variables may have been assigned. -/
def forget (known : Known) (names : List String) : Known := names.foldl (·.erase ·) known

/-- Only the bindings of the other variables stay. -/
theorem getElem?_forget {known : Known} {names : List String} {x : String} :
    (known.forget names)[x]? = if x ∈ names then none else known[x]? := by
  induction names generalizing known with
  | nil => simp [forget]
  | cons y names ih =>
    simp only [forget, List.foldl_cons] at ih ⊢
    rw [ih, Std.ExtTreeMap.getElem?_erase]
    grind

end Known

end Midend
