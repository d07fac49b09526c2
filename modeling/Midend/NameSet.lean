import Std.Data.ExtTreeSet

/-!
# Sets of names

Finite sets of variable names. Two sets with the same names are equal, and a
set lists its names by code point.
-/

namespace Midend

/-- A finite set of names. -/
abbrev NameSet := Std.ExtTreeSet String

namespace NameSet

/-- The set of the names in a list. -/
def of (names : List String) : NameSet := .ofList names

@[simp] theorem mem_of {x : String} {names : List String} : x ∈ of names ↔ x ∈ names := by
  simp [of]

/-- A set lists each of its names once. -/
theorem nodup_toList (s : NameSet) : s.toList.Nodup :=
  Std.ExtTreeSet.distinct_toList.imp fun hne he => hne (by simp [he])

/-- The union of sets. -/
def unions (sets : List NameSet) : NameSet := sets.foldl (· ∪ ·) ∅

theorem mem_foldl_union {x : String} {s : NameSet} {sets : List NameSet} :
    x ∈ sets.foldl (· ∪ ·) s ↔ x ∈ s ∨ ∃ t ∈ sets, x ∈ t := by
  induction sets generalizing s with
  | nil => simp
  | cons t sets ih => simp [ih, Std.ExtTreeSet.mem_union_iff, or_assoc]

@[simp] theorem mem_unions {x : String} {sets : List NameSet} :
    x ∈ unions sets ↔ ∃ t ∈ sets, x ∈ t := by
  simp [unions, mem_foldl_union]

end NameSet

end Midend
