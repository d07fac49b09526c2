import Midend.Flow.GenKill

/-!
# Liveness

A variable is live where its value may still be read. Liveness is a backward
analysis: a variable is live before an instruction if the instruction reads it,
or if it is live after it and not assigned by it; it is live after an
instruction if it is live before one of its successors, and nothing is live
where the method ends. Only the variables that hold a register are followed.
-/

namespace Midend

namespace Method

/-- The followed variables that an instruction assigns. -/
def defs (m : Method) (i : Instruction) : NameSet :=
  .of (i.writes?.toList.filter m.holdsRegister)

/-- The followed variables that an instruction reads. -/
def uses (m : Method) (i : Instruction) : NameSet := .of (i.reads.filter m.holdsRegister)

/-- Liveness as a gen/kill analysis: a use makes a variable live, an assignment
    ends its life. -/
def livenessRules (m : Method) : GenKill where
  direction := .backward
  meet := .union
  gen := m.code.map m.uses
  kill := m.code.map m.defs

end Method

/-- The live variables around each instruction of a method. -/
structure Liveness where
  /-- The analysis that found them. -/
  rules : GenKill
  /-- What it found. -/
  facts : Facts NameSet

namespace Liveness

/-- The number of instructions. -/
def size (l : Liveness) : Nat := l.facts.size

/-- The variables that an instruction assigns. -/
def defs (l : Liveness) (i : Nat) : NameSet := l.rules.killAt i

/-- The variables that an instruction reads. -/
def uses (l : Liveness) (i : Nat) : NameSet := l.rules.genAt i

/-- The variables that are live before an instruction. -/
def liveIn (l : Liveness) (i : Nat) : NameSet :=
  (l.facts[i]?.map (·.before .backward)).getD ∅

/-- The variables that are live after an instruction. -/
def liveOut (l : Liveness) (i : Nat) : NameSet :=
  (l.facts[i]?.map (·.after .backward)).getD ∅

/-- The live variables of a method with the given flow of control. -/
def ofMethod (m : Method) (g : FlowGraph) : Liveness where
  rules := m.livenessRules
  facts := m.livenessRules.solve g

/-- The live variables of a method with a flow graph that may not be its own.
    All nodes of the graph must be instructions of the method. -/
def along (m : Method) (g : FlowGraph) : Except Error Liveness :=
  if g.size ≤ m.code.size then .ok (ofMethod m g) else .error (.missingInstruction m.code.size)

/-- Whether another pass along a flow graph changes nothing. All nodes of the
    graph must have been analyzed. -/
def isFixedPoint (l : Liveness) (g : FlowGraph) : Except Error Bool :=
  if g.size ≤ l.size then .ok (!(l.rules.analysis.pass g l.facts).2)
  else .error (.missingInstruction l.size)

end Liveness

end Midend
