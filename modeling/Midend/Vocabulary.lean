/-!
# Vocabularies

Finitely many things, each of which is written by a text of its own, so that it can be
found by it.
-/

namespace Midend

/-- Things with texts that stand for them. -/
structure Vocabulary (α : Type) where
  /-- The things, in order. -/
  all : List α
  /-- How a thing is written. -/
  text : α → String
  mem_all : ∀ a, a ∈ all
  eq_of_text_eq : ∀ {a b : α}, text a = text b → a = b

namespace Vocabulary

variable {α : Type} (V : Vocabulary α)

/-- The thing that is written so. -/
def find? (s : String) : Option α := V.all.find? fun a => V.text a = s

/-- A text stands for a thing exactly if the thing is written so. -/
theorem find?_eq_some_iff {s : String} {a : α} : V.find? s = some a ↔ s = V.text a := by
  constructor
  · intro h
    exact (of_decide_eq_true (List.find?_some h :)).symm
  · rintro rfl
    cases h : V.find? (V.text a) with
    | none => exact absurd (decide_eq_true rfl) (List.find?_eq_none.1 h a (V.mem_all a))
    | some b => exact congrArg some (V.eq_of_text_eq (of_decide_eq_true (List.find?_some h :)))

end Vocabulary

end Midend
