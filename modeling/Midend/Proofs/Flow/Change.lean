import Midend.Proofs.Flow.LeastSolution
import Midend.Proofs.Flow.Liveness

/-!
# Passes tell whether they change facts

A pass overwrites facts while it still reads them, so that what it compares is a mixture
of facts from before and from now. Yet it tells exactly whether the facts it started from
satisfy the equations, all at once: up to the first instruction whose facts are new, all
facts are those from before. It also tells exactly whether it leaves other facts, since it
comes to each instruction once. Neither needs a monotone analysis.

The live sets of a method are known to be right in the same way: whether another pass
changes them is whether they satisfy the equations of liveness.

* `pass_snd_eq_false_iff_equations`, `pass_snd_eq_true_iff_ne`: what a pass tells;
* `Liveness.isFixedPoint_eq`: what the check of live sets tells;
* `pass_reports_change_exactly`: both, and what passes settle on.
-/

namespace Midend

namespace Analysis

variable {φ : Type} [DecidableEq φ] {a : Analysis φ} {g : FlowGraph} {facts : Facts φ}

/-- A pass tells of no change exactly if the facts it starts from satisfy the equations. There
    may be more facts than instructions. -/
theorem pass_snd_eq_false_iff_equations (hs : g.size ≤ facts.size) :
    (a.pass g facts).2 = false ↔ a.Equations g (a.beforeAt facts) (a.afterAt facts) := by
  rw [pass_snd_eq_false_iff, equations_iff]
  exact forall₂_congr fun i hi => getElem?_eq_recompute_iff (hi.trans_le hs)

/-- A pass tells of a change exactly if it leaves other facts. -/
theorem pass_snd_eq_true_iff_ne (hs : facts.size = g.size) :
    (a.pass g facts).2 = true ↔ (a.pass g facts).1 ≠ facts := by
  refine ⟨pass_fst_ne_of_changed hs, fun hne => ?_⟩
  by_contra h
  exact hne (pass_fst_eq_of_unchanged (Bool.eq_false_of_not_eq_true h))

end Analysis

namespace Method

/-- What meets is put together. -/
theorem meet_liveness (m : Method) (facts : List NameSet) :
    m.livenessRules.analysis.meet facts = .unions facts := by
  refine Std.ExtTreeSet.ext_mem fun v => ?_
  rw [mem_meet_liveness, NameSet.mem_unions]

theorem transfer_liveness (m : Method) (i : Nat) (s : NameSet) :
    m.livenessRules.analysis.transfer i s =
      m.livenessRules.genAt i ∪ (s \ m.livenessRules.killAt i) := by
  refine Std.ExtTreeSet.ext_mem fun v => ?_
  rw [GenKill.mem_transfer, Std.ExtTreeSet.mem_union_iff, Std.ExtTreeSet.mem_diff_iff]

end Method

namespace Liveness

/-- Live sets pass the check exactly if they satisfy the equations of liveness. -/
theorem isFixedPoint_eq {m : Method} {l : Liveness} (hl : l.rules = m.livenessRules)
    {g : FlowGraph} (hs : g.size ≤ l.size) :
    ∃ b, l.isFixedPoint g = .ok b ∧ (b = true ↔ ∀ i < g.size,
      l.liveIn i = l.uses i ∪ (l.liveOut i \ l.defs i) ∧
        l.liveOut i = .unions ((g.successors i).map l.liveIn)) := by
  refine ⟨_, if_pos hs, ?_⟩
  rw [Bool.not_eq_true', Analysis.pass_snd_eq_false_iff_equations hs]
  obtain ⟨rules, facts⟩ := l
  obtain rfl : rules = m.livenessRules := hl
  refine forall₂_congr fun i _ => ?_
  rw [uses, defs, ← m.transfer_liveness, ← m.meet_liveness]
  exact and_comm

end Liveness

namespace Analysis

/-- A pass over facts for each instruction tells of no change exactly if they satisfy the
    equations, and then leaves them; it tells of a change exactly if it leaves others. So what
    passes settle on satisfies the equations, and live sets pass the check exactly if they
    satisfy those of liveness. -/
theorem pass_reports_change_exactly {φ : Type} [DecidableEq φ] (a : Analysis φ) (g : FlowGraph) :
    (∀ facts : Facts φ, facts.size = g.size →
      ((a.pass g facts).2 = false ↔ a.Equations g (a.beforeAt facts) (a.afterAt facts)) ∧
      ((a.pass g facts).2 = false → (a.pass g facts).1 = facts) ∧
      ((a.pass g facts).2 = true ↔ (a.pass g facts).1 ≠ facts)) ∧
    (∀ n r, a.solve? g n = some r →
      r.size = g.size ∧ a.Equations g (a.beforeAt r) (a.afterAt r)) ∧
    ∀ (m : Method) (l : Liveness), l.rules = m.livenessRules → g.size ≤ l.size →
      ∃ b, l.isFixedPoint g = .ok b ∧ (b = true ↔ ∀ i < g.size,
        l.liveIn i = l.uses i ∪ (l.liveOut i \ l.defs i) ∧
          l.liveOut i = .unions ((g.successors i).map l.liveIn)) := by
  refine ⟨fun facts hs => ?_, fun n r h => ?_, fun m l hl hs => Liveness.isFixedPoint_eq hl hs⟩
  · exact ⟨pass_snd_eq_false_iff_equations hs.ge, pass_fst_eq_of_unchanged,
      pass_snd_eq_true_iff_ne hs⟩
  · have hsol : a.IsSolution g r := isSolution_of_settle? (by rw [start, Array.size_replicate]) h
    exact ⟨hsol.size_eq, hsol.equations⟩

/-- Each instruction turns a truth value around. -/
def flipping : Analysis Bool where
  direction := .forward
  initial := false
  transfer _ x := !x
  meet facts := facts.any id

/-- Where an instruction leads to itself, no facts satisfy the equations, so that every pass
    changes them. Where it leads to another, some do, and a pass leaves them. Live sets that
    are empty do not pass the check if a variable is read. -/
theorem pass_reports_change_exactly_flipping :
    (∀ p : Point Bool, (flipping.pass ⟨#[[0]]⟩ #[p]).1 ≠ #[p]) ∧
      (flipping.pass ⟨#[[1], []]⟩ #[⟨false, true⟩, ⟨true, false⟩]).1 =
        #[⟨false, true⟩, ⟨true, false⟩] ∧
      Liveness.isFixedPoint ⟨Liveness.countdown.livenessRules, #[⟨∅, ∅⟩]⟩ ⟨#[[]]⟩ = .ok false := by
  refine ⟨fun p => ?_, ?_, ?_⟩
  · obtain ⟨hfalse, -, htrue⟩ := (pass_reports_change_exactly flipping ⟨#[[0]]⟩).1 #[p] rfl
    refine htrue.1 (Bool.eq_true_of_not_eq_false fun h => ?_)
    obtain ⟨entry, exit⟩ := p
    cases entry <;> cases exit <;> exact absurd (hfalse.1 h) (by decide)
  · obtain ⟨hfalse, hkeeps, -⟩ := (pass_reports_change_exactly flipping ⟨#[[1], []]⟩).1
      #[⟨false, true⟩, ⟨true, false⟩] rfl
    exact hkeeps (hfalse.2 (by decide))
  · let l : Liveness := ⟨Liveness.countdown.livenessRules, #[⟨∅, ∅⟩]⟩
    obtain ⟨b, hb, hiff⟩ := (pass_reports_change_exactly flipping ⟨#[[]]⟩).2.2
      Liveness.countdown l rfl (by decide)
    rw [hb]
    refine congrArg Except.ok (Bool.eq_false_iff.2 fun h => ?_)
    have hread : "n" ∈ l.uses 0 := by decide +kernel
    have hlive : "n" ∈ l.liveIn 0 := by
      rw [(hiff.1 h 0 (by decide)).1, Std.ExtTreeSet.mem_union_iff]
      exact .inl hread
    exact Std.ExtTreeSet.not_mem_empty hlive

end Analysis

end Midend
