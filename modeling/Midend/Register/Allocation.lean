import Midend.Register.Coloring
import Midend.Settings

/-!
# Register allocation

The locals of a method get registers after the reserved ones, as a coloring of
their interference graph says, so that locals which are never live together may
share a register. The receiver and the parameters keep theirs.

If the flow of the method is malformed or the budget too small, the method stays
as it is.
-/

namespace Midend

/-- What was allocated for a method. -/
structure Allocation where
  /-- The name of the method. -/
  method : String
  /-- The number of registers in use, the reserved ones included. -/
  registers : Nat
  /-- The colors of the locals; a register is a color after the reserved ones. -/
  coloring : Coloring
  deriving DecidableEq

/-- A change of a method with a result, or an error and what was changed up to
    it. -/
abbrev Update := EStateM Error Method

namespace Method

/-- The interference graph of the locals. -/
def interference (m : Method) : Except Error Interference := do
  let flow ← m.flowGraph
  return .ofLiveness m (.ofMethod m flow)

/-- The coloring of the locals within a budget. -/
def coloring (m : Method) (budget : Budget) : Except Error Coloring := do
  let g ← m.interference
  match budget with
  | .minimal => return g.leastColoring
  | .atMost n =>
    match if m.reserved ≤ n then g.coloring? (n - m.reserved) else none with
    | some c => return c
    | none => throw (.registerPressure m.name n m.reserved)

/-- Gives each variable the register of its color, counted from `base`. -/
def assign (base : Nat) : List (String × Nat) → Update Unit
  | [] => return
  | (name, color) :: rest => do
    match (← get).setRegister name (base + color) with
    | .ok m => set m
    | .error e => throw e
    assign base rest

/-- Allocates registers for the locals within a budget. -/
def allocate (budget : Budget) : Update Allocation := do
  let m ← get
  match m.coloring budget with
  | .error e => throw e
  | .ok coloring =>
    assign m.reserved coloring.colors.toList
    return { method := m.name, registers := m.reserved + coloring.used, coloring }

/-- Allocates registers for methods in order, up to the first that fails. The
    result also has the methods as they are afterwards. -/
def allocateAll (budget : Budget) : List Method → Except Error (List Allocation) × List Method
  | [] => (.ok [], [])
  | m :: ms =>
    match allocate budget m with
    | .error e m => (.error e, m :: ms)
    | .ok a m =>
      let (rest, ms) := allocateAll budget ms
      (rest.map (a :: ·), m :: ms)

end Method

end Midend
