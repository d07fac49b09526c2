import Midend.Flow.Graph

/-!
# Data-flow analyses

An analysis finds a fact for each side of each instruction of a method. It runs
forwards or backwards. A fact *enters* an instruction on the side where the
analysis comes from and *exits* on the other: what enters is the meet of what
exits from the instructions before it, in the direction of the analysis, and
what exits is the transfer of what enters.

These equations are solved by passes. A pass visits the instructions in order
and recomputes both facts of each from the facts at hand; passes are repeated
until one changes nothing, which then has the equations hold everywhere.
-/

namespace Midend

/-- The direction in which an analysis follows the flow of control. -/
inductive Direction
  | forward
  | backward
  deriving DecidableEq, Repr

/-- An analysis with facts in `φ`. -/
structure Analysis (φ : Type) where
  /-- Its direction. -/
  direction : Direction
  /-- The fact that passes start from, everywhere. -/
  initial : φ
  /-- What exits from an instruction, from what enters. -/
  transfer : Nat → φ → φ
  /-- What enters, from what exits before; of no facts, the fact at the boundary
      of the method. -/
  meet : List φ → φ

/-- The facts around an instruction. -/
structure Point (φ : Type) where
  /-- The fact that enters. -/
  entry : φ
  /-- The fact that exits. -/
  exit : φ
  deriving DecidableEq, Repr

/-- The facts around each instruction. -/
abbrev Facts (φ : Type) := Array (Point φ)

namespace Point

variable {φ : Type}

/-- The fact just before the instruction, in the order of execution. -/
def before (p : Point φ) : Direction → φ
  | .forward => p.entry
  | .backward => p.exit

/-- The fact just after the instruction, in the order of execution. -/
def after (p : Point φ) : Direction → φ
  | .forward => p.exit
  | .backward => p.entry

end Point

namespace Analysis

variable {φ : Type} (a : Analysis φ) (g : FlowGraph)

/-- The instructions that come right before one, in the direction of the
    analysis. -/
def sources (i : Nat) : List Nat :=
  match a.direction with
  | .forward => g.predecessors i
  | .backward => g.successors i

/-- The instructions in the order in which a pass visits them. -/
def order : List Nat :=
  match a.direction with
  | .forward => List.range g.size
  | .backward => (List.range g.size).reverse

/-- The facts before the first pass. -/
def start : Facts φ := Array.replicate g.size ⟨a.initial, a.initial⟩

/-- The fact that exits from an instruction. -/
def exitAt (facts : Facts φ) (i : Nat) : φ := (facts[i]?.map Point.exit).getD a.initial

/-- The facts around an instruction, computed from those of its sources. -/
def recompute (facts : Facts φ) (i : Nat) : Point φ :=
  let entry := a.meet ((a.sources g i).map (a.exitAt facts))
  { entry, exit := a.transfer i entry }

variable [DecidableEq φ]

/-- Stores the recomputed facts of an instruction, and notes whether they are
    new: `==` on facts is taken to be equality. -/
def visit (state : Facts φ × Bool) (i : Nat) : Facts φ × Bool :=
  let p := a.recompute g state.1 i
  if state.1[i]? = some p then state else (state.1.setIfInBounds i p, true)

/-- Visits all instructions in order. The result is the new facts and whether
    any of them changed. -/
def pass (facts : Facts φ) : Facts φ × Bool := (a.order g).foldl (a.visit g) (facts, false)

@[simp] theorem size_visit (state : Facts φ × Bool) (i : Nat) :
    (a.visit g state i).1.size = state.1.size := by
  simp only [visit]
  split <;> simp

/-- A pass has a point for each instruction, as before. -/
@[simp] theorem size_pass (facts : Facts φ) : (a.pass g facts).1.size = facts.size := by
  suffices h : ∀ (is : List Nat) (state : Facts φ × Bool),
      (is.foldl (a.visit g) state).1.size = state.1.size from h _ _
  intro is
  induction is with
  | nil => exact fun _ => rfl
  | cons i is ih => exact fun state => (ih _).trans (a.size_visit g state i)

/-- What each pass leaves, for at most `n` passes up to the first that changes
    nothing. -/
def passes : Nat → Facts φ → List (Facts φ × Bool)
  | 0, _ => []
  | n + 1, facts =>
    let (facts, changed) := a.pass g facts
    (facts, changed) :: if changed then passes n facts else []

/-- Repeats passes until one changes nothing; none if the first `n` passes all
    change something. -/
def settle? : Nat → Facts φ → Option (Facts φ)
  | 0, _ => none
  | n + 1, facts =>
    let (facts, changed) := a.pass g facts
    if changed then settle? n facts else some facts

/-- The solution found from the initial facts, if at most `n` passes find it. -/
def solve? (n : Nat) : Option (Facts φ) := a.settle? g n (a.start g)

end Analysis

end Midend
