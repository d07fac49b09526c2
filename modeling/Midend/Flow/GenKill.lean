import Midend.Flow.Analysis
import Midend.NameSet

/-!
# Gen/kill analyses

Analyses whose facts are sets of names, where each instruction takes some names
away (*kill*) and then adds some (*gen*), and where facts meet by union or by
intersection.

Each name can be followed by itself. It is in all the initial facts or in none
of them, and so it only ever leaves facts, or only ever enters them. A pass that
changes something thus moves some name into or out of some fact for good, which
bounds the number of passes.
-/

namespace Midend

/-- How sets meet. -/
inductive SetMeet
  | union
  | intersection
  deriving DecidableEq, Repr

/-- The meet of a nonempty list of sets. -/
def SetMeet.apply : SetMeet → NameSet → List NameSet → NameSet
  | union, s, sets => sets.foldl (· ∪ ·) s
  | intersection, s, sets => sets.foldl (· ∩ ·) s

/-- A gen/kill analysis. -/
structure GenKill where
  /-- Its direction. -/
  direction : Direction
  /-- How facts meet. -/
  meet : SetMeet
  /-- The fact that passes start from. -/
  initial : NameSet := ∅
  /-- The fact at the boundary of the method. -/
  boundary : NameSet := ∅
  /-- The names that each instruction adds. -/
  gen : Array NameSet
  /-- The names that each instruction takes away. -/
  kill : Array NameSet

namespace GenKill

/-- The names that an instruction adds. -/
def genAt (r : GenKill) (i : Nat) : NameSet := r.gen[i]?.getD ∅

/-- The names that an instruction takes away. -/
def killAt (r : GenKill) (i : Nat) : NameSet := r.kill[i]?.getD ∅

/-- The analysis of the given sets. -/
def analysis (r : GenKill) : Analysis NameSet where
  direction := r.direction
  initial := r.initial
  transfer i x := (x \ r.killAt i) ∪ r.genAt i
  meet facts :=
    match facts with
    | [] => r.boundary
    | x :: xs => r.meet.apply x xs

/-- A name exits from an instruction if the instruction adds it, or if it enters
    and is not taken away. -/
theorem mem_transfer {r : GenKill} {i : Nat} {s : NameSet} {x : String} :
    x ∈ r.analysis.transfer i s ↔ x ∈ r.genAt i ∨ (x ∈ s ∧ x ∉ r.killAt i) := by
  simp only [analysis, Std.ExtTreeSet.mem_union_iff, Std.ExtTreeSet.mem_diff_iff]
  exact or_comm

/-- The names that can be in a fact. -/
def names (r : GenKill) : NameSet := r.initial ∪ r.boundary ∪ .unions r.gen.toList

/-- The number of passes that always suffices: each name changes sides at most
    once in each of the two facts of an instruction, and the last pass changes
    nothing. -/
def passLimit (r : GenKill) (g : FlowGraph) : Nat := 2 * g.size * r.names.size + 1

/-- The solution of the analysis. -/
def solve (r : GenKill) (g : FlowGraph) : Facts NameSet :=
  (r.analysis.solve? g (r.passLimit g)).getD (r.analysis.start g)

end GenKill

end Midend
