import Mathlib.Algebra.GroupWithZero.Nat
import Mathlib.Algebra.Order.BigOperators.Group.List
import Mathlib.Algebra.Order.Group.Nat
import Midend.Flow.Liveness
import Midend.Proofs.Flow.Edges
import Midend.Proofs.Flow.Solver

/-!
# Liveness is exact

The live sets of a method are the least solution of their equations, and so a
variable is live before an instruction exactly if some path from there leads to
a use of it that no assignment on the way cuts off.

Each pass that changes something puts a name into a set in which it was not
before. All names come from the uses of the method, so that the number of
passes has a bound, and the solver never gives up.

* `settle_liveness`: the solver settles within its limit;
* `mem_liveIn_iff`, `mem_liveOut_iff`: the equations of the live sets;
* `liveness_exact`: the live sets are what the paths say.
-/

namespace Midend

namespace NameSet

/-- Sets of names are ordered by inclusion. -/
instance : PartialOrder NameSet where
  le s t := ∀ x ∈ s, x ∈ t
  le_refl _ _ h := h
  le_trans _ _ _ h h' x hx := h' x (h x hx)
  le_antisymm _ _ h h' := Std.ExtTreeSet.ext_mem fun x => ⟨h x, h' x⟩

theorem size_le_size {s t : NameSet} (h : s ≤ t) : s.size ≤ t.size := by
  rw [← Std.ExtTreeSet.size_inter_eq_size_left h]
  exact Std.ExtTreeSet.size_inter_le_size_right

theorem size_lt_size {s t : NameSet} (h : s ≤ t) (hne : s ≠ t) : s.size < t.size := by
  obtain ⟨x, hx, hxs⟩ : ∃ x ∈ t, x ∉ s := by
    by_contra hall
    push Not at hall
    exact hne (le_antisymm h hall)
  -- The smaller set still fits when `x` is taken from the larger one.
  have herase : s ≤ t.erase x := by
    intro y hy
    rw [Std.ExtTreeSet.mem_erase]
    exact ⟨by rintro hxy; simp at hxy; exact hxs (hxy ▸ hy), h y hy⟩
  have hle := size_le_size herase
  have hpos : t.size ≠ 0 := by
    intro h0
    have := Std.ExtTreeSet.eq_empty_iff_size_eq_zero.2 h0
    subst this
    simp at hx
  rw [Std.ExtTreeSet.size_erase, if_pos (Std.ExtTreeSet.mem_iff_contains.1 hx)] at hle
  omega

end NameSet

/-- The number of names around an instruction. -/
def Point.weight (p : Point NameSet) : Nat := p.entry.size + p.exit.size

theorem Point.weight_le {p q : Point NameSet} (h : p ≤ q) : p.weight ≤ q.weight :=
  Nat.add_le_add (NameSet.size_le_size h.1) (NameSet.size_le_size h.2)

theorem Point.weight_lt {p q : Point NameSet} (h : p ≤ q) (hne : p ≠ q) : p.weight < q.weight := by
  obtain ⟨hentry, hexit⟩ := h
  by_cases he : p.entry = q.entry
  · have hx : p.exit ≠ q.exit := by
      intro hx
      cases p
      cases q
      exact hne (congrArg₂ Point.mk he hx)
    exact Nat.add_lt_add_of_le_of_lt (NameSet.size_le_size hentry) (NameSet.size_lt_size hexit hx)
  · exact Nat.add_lt_add_of_lt_of_le (NameSet.size_lt_size hentry he) (NameSet.size_le_size hexit)

/-- The number of names in all facts. -/
def Facts.weight (facts : Facts NameSet) : Nat := (facts.toList.map Point.weight).sum

theorem weight_lt_of_forall₂ {ps qs : List (Point NameSet)} (h : List.Forall₂ (· ≤ ·) ps qs) :
    (ps.map Point.weight).sum ≤ (qs.map Point.weight).sum ∧
      (ps ≠ qs → (ps.map Point.weight).sum < (qs.map Point.weight).sum) := by
  induction h with
  | nil => exact ⟨Nat.le_refl _, fun hne => absurd rfl hne⟩
  | @cons p q ps qs hpq _ ih =>
    obtain ⟨hle, hlt⟩ := ih
    have hw := Point.weight_le hpq
    simp only [List.map_cons, List.sum_cons]
    refine ⟨by omega, fun hne => ?_⟩
    by_cases hp : p = q
    · subst hp
      have := hlt fun hps => hne (congrArg _ hps)
      omega
    · have := Point.weight_lt hpq hp
      omega

/-- Larger facts hold more names. -/
theorem Facts.Below.weight_lt {x y : Facts NameSet} (h : Facts.Below x y) (hne : x ≠ y) :
    Facts.weight x < Facts.weight y := by
  refine (weight_lt_of_forall₂ ?_).2 fun he => hne (Array.toList_inj.1 he)
  refine List.forall₂_iff_get.2 ⟨by simpa using h.size_eq, fun i hx hy => ?_⟩
  refine h.le (i := i) ?_ ?_
  · rw [← Array.getElem?_toList, List.get_eq_getElem, List.getElem?_eq_getElem hx]
  · rw [← Array.getElem?_toList, List.get_eq_getElem, List.getElem?_eq_getElem hy]

theorem Facts.weight_le {facts : Facts NameSet} {names : NameSet}
    (h : Analysis.Everywhere (fun _ p => p.entry ≤ names ∧ p.exit ≤ names) facts) :
    Facts.weight facts ≤ 2 * facts.size * names.size := by
  have hp : ∀ n ∈ facts.toList.map Point.weight, n ≤ 2 * names.size := by
    intro n hn
    obtain ⟨p, hp, rfl⟩ := List.mem_map.1 hn
    obtain ⟨i, hi⟩ := List.mem_iff_getElem?.1 hp
    have hle := h i p (by rwa [← Array.getElem?_toList])
    have h₁ := NameSet.size_le_size hle.1
    have h₂ := NameSet.size_le_size hle.2
    rw [Point.weight]
    omega
  have := List.sum_le_card_nsmul _ _ hp
  simpa [Facts.weight, Nat.mul_assoc, Nat.mul_left_comm, Nat.mul_comm] using this

/-! ## The equations -/

namespace Method

variable {m : Method} {g : FlowGraph}

/-- A name enters an instruction from some instruction after it. -/
theorem mem_meet_liveness {facts : List NameSet} {v : String} :
    v ∈ m.livenessRules.analysis.meet facts ↔ ∃ s ∈ facts, v ∈ s := by
  cases facts with
  | nil => simp [GenKill.analysis, livenessRules]
  | cons s facts => simp [GenKill.analysis, livenessRules, SetMeet.apply, NameSet.mem_foldl_union]

theorem isMonotone_liveness (m : Method) : m.livenessRules.analysis.IsMonotone where
  transfer_le i x y h v hv := by
    rw [GenKill.mem_transfer] at hv ⊢
    exact hv.imp_right fun hx => ⟨h v hx.1, hx.2⟩
  meet_le {xs ys} h v hv := by
    rw [mem_meet_liveness] at hv ⊢
    obtain ⟨s, hs, hv⟩ := hv
    induction h with
    | nil => exact absurd hs List.not_mem_nil
    | @cons x y xs ys hxy _ ih =>
      rcases List.mem_cons.1 hs with rfl | hs
      · exact ⟨y, List.mem_cons_self, hxy v hv⟩
      · obtain ⟨t, ht, hv⟩ := ih hs
        exact ⟨t, List.mem_cons_of_mem _ ht, hv⟩
  initial_le x v hv := by
    simp [GenKill.analysis, livenessRules] at hv

theorem mem_entry_recompute {facts : Facts NameSet} {i : Nat} {v : String} :
    v ∈ (m.livenessRules.analysis.recompute g facts i).entry ↔
      ∃ s ∈ g.successors i, v ∈ m.livenessRules.analysis.exitAt facts s := by
  simp only [Analysis.recompute, mem_meet_liveness, List.mem_map, exists_exists_and_eq_and]
  rfl

theorem mem_exit_recompute {facts : Facts NameSet} {i : Nat} {v : String} :
    v ∈ (m.livenessRules.analysis.recompute g facts i).exit ↔
      v ∈ m.livenessRules.genAt i ∨
        (v ∈ (m.livenessRules.analysis.recompute g facts i).entry ∧
          v ∉ m.livenessRules.killAt i) :=
  GenKill.mem_transfer

/-- A name that exits from an instruction is in the facts around it. -/
theorem exists_of_mem_exitAt {facts : Facts NameSet} {i : Nat} {v : String}
    (h : v ∈ m.livenessRules.analysis.exitAt facts i) :
    ∃ p, facts[i]? = some p ∧ v ∈ p.exit := by
  rw [Analysis.exitAt] at h
  cases hp : facts[i]? with
  | none =>
    rw [hp] at h
    simp [GenKill.analysis, livenessRules] at h
  | some p =>
    rw [hp] at h
    exact ⟨p, rfl, h⟩

theorem genAt_le_names (i : Nat) : m.livenessRules.genAt i ≤ m.livenessRules.names := by
  intro v hv
  rw [GenKill.genAt] at hv
  cases hs : m.livenessRules.gen[i]? with
  | none => simp [hs] at hv
  | some s =>
    rw [hs, Option.getD_some] at hv
    rw [GenKill.names, Std.ExtTreeSet.mem_union_iff, NameSet.mem_unions]
    exact .inr ⟨s, by simpa using Array.mem_of_getElem? hs, hv⟩

/-- The facts that passes reach: names that the method uses, and still
    growing. -/
structure Reached (m : Method) (g : FlowGraph) (facts : Facts NameSet) : Prop where
  size_eq : facts.size = g.size
  ascending : m.livenessRules.analysis.Ascending g facts
  within : Analysis.Everywhere
    (fun _ p => p.entry ≤ m.livenessRules.names ∧ p.exit ≤ m.livenessRules.names) facts

theorem Reached.start : m.Reached g (m.livenessRules.analysis.start g) where
  size_eq := by rw [Analysis.start, Array.size_replicate]
  ascending := m.isMonotone_liveness.ascending_start
  within := Analysis.everywhere_start fun _ =>
    ⟨m.isMonotone_liveness.initial_le _, m.isMonotone_liveness.initial_le _⟩

theorem Reached.pass {facts : Facts NameSet} (h : m.Reached g facts) :
    m.Reached g (m.livenessRules.analysis.pass g facts).1 where
  size_eq := by rw [Analysis.size_pass, h.size_eq]
  ascending := (m.isMonotone_liveness.ascending_pass h.ascending).1
  within := by
    refine h.within.pass fun facts hw i => ?_
    have hentry : (m.livenessRules.analysis.recompute g facts i).entry ≤ m.livenessRules.names := by
      intro v hv
      obtain ⟨s, _, hv⟩ := mem_entry_recompute.1 hv
      obtain ⟨p, hp, hv⟩ := exists_of_mem_exitAt hv
      exact (hw s p hp).2 v hv
    refine ⟨hentry, fun v hv => ?_⟩
    rcases mem_exit_recompute.1 hv with hv | ⟨hv, _⟩
    · exact genAt_le_names i v hv
    · exact hentry v hv

/-- The solver settles within its limit. -/
theorem settle_liveness (m : Method) (g : FlowGraph) :
    ∃ r, m.livenessRules.analysis.solve? g (m.livenessRules.passLimit g) = some r := by
  refine Analysis.settle?_of_rank Facts.weight (fun _ => Reached.pass) ?_ ?_ Reached.start
    (Nat.lt_of_lt_of_le (Nat.lt_succ_self (2 * g.size * m.livenessRules.names.size)) ?_)
  · intro facts h hc
    refine (m.isMonotone_liveness.ascending_pass h.ascending).2.weight_lt ?_
    exact (Analysis.pass_fst_ne_of_changed h.size_eq hc).symm
  · intro facts h
    exact h.size_eq ▸ Facts.weight_le h.within
  · exact Nat.le_add_right _ _

end Method

namespace Liveness

variable {m : Method} {g : FlowGraph}

theorem solve?_eq_facts (m : Method) (g : FlowGraph) :
    m.livenessRules.analysis.solve? g (m.livenessRules.passLimit g) =
      some (ofMethod m g).facts := by
  obtain ⟨r, hr⟩ := m.settle_liveness g
  rw [ofMethod, GenKill.solve, hr, Option.getD_some]

theorem isSolution_ofMethod (m : Method) (g : FlowGraph) :
    m.livenessRules.analysis.IsSolution g (ofMethod m g).facts :=
  Analysis.isSolution_of_settle? Method.Reached.start.size_eq (solve?_eq_facts m g)

theorem size_ofMethod (m : Method) (g : FlowGraph) : (ofMethod m g).size = g.size :=
  (isSolution_ofMethod m g).size_eq

theorem exitAt_ofMethod (m : Method) (g : FlowGraph) (i : Nat) :
    m.livenessRules.analysis.exitAt (ofMethod m g).facts i = (ofMethod m g).liveIn i := rfl

theorem getElem?_facts {i : Nat} (hi : i < g.size) :
    (ofMethod m g).facts[i]? = some ⟨(ofMethod m g).liveOut i, (ofMethod m g).liveIn i⟩ := by
  have h := (isSolution_ofMethod m g).solved i hi
  rw [liveOut, liveIn, h]
  rfl

theorem not_mem_of_size_le {i : Nat} (hi : g.size ≤ i) (v : String) :
    v ∉ (ofMethod m g).liveIn i ∧ v ∉ (ofMethod m g).liveOut i := by
  have h : (ofMethod m g).facts[i]? = none :=
    Array.getElem?_eq_none ((size_ofMethod m g).trans_le hi)
  simp [liveIn, liveOut, h]

/-- A variable is live after an instruction if it is live before a successor. -/
theorem mem_liveOut_iff {i : Nat} {v : String} :
    v ∈ (ofMethod m g).liveOut i ↔ ∃ s ∈ g.successors i, v ∈ (ofMethod m g).liveIn s := by
  by_cases hi : i < g.size
  · have h := (isSolution_ofMethod m g).solved i hi
    rw [getElem?_facts hi, Option.some.injEq] at h
    have := congrArg (v ∈ ·.entry) h
    simpa only [Method.mem_entry_recompute, exitAt_ofMethod, eq_iff_iff] using this
  · refine iff_of_false (not_mem_of_size_le (Nat.le_of_not_lt hi) v).2 ?_
    rintro ⟨s, hs, _⟩
    exact hi (FlowGraph.lt_size_of_mem_successors hs)

/-- A variable is live before an instruction if it is read there, or if it is
    live after the instruction and not assigned by it. -/
theorem mem_liveIn_iff {i : Nat} (hi : i < g.size) {v : String} :
    v ∈ (ofMethod m g).liveIn i ↔
      v ∈ (ofMethod m g).uses i ∨
        (v ∈ (ofMethod m g).liveOut i ∧ v ∉ (ofMethod m g).defs i) := by
  have h := (isSolution_ofMethod m g).solved i hi
  rw [getElem?_facts hi, Option.some.injEq] at h
  have hentry := congrArg (v ∈ ·.entry) h
  have hexit := congrArg (v ∈ ·.exit) h
  simp only [eq_iff_iff] at hentry hexit
  rw [hexit, Method.mem_exit_recompute, ← hentry]
  rfl

theorem defs_ofMethod (m : Method) (g : FlowGraph) {i : Nat} {instr : Instruction}
    (hi : m.code[i]? = some instr) : (ofMethod m g).defs i = m.defs instr := by
  simp [defs, ofMethod, GenKill.killAt, Method.livenessRules, hi]

theorem uses_ofMethod (m : Method) (g : FlowGraph) {i : Nat} {instr : Instruction}
    (hi : m.code[i]? = some instr) : (ofMethod m g).uses i = m.uses instr := by
  simp [uses, ofMethod, GenKill.genAt, Method.livenessRules, hi]

theorem not_mem_uses_of_size_le {i : Nat} (hi : m.code.size ≤ i) (v : String) :
    v ∉ (ofMethod m g).uses i := by
  have h : m.code[i]? = none := Array.getElem?_eq_none hi
  simp [uses, ofMethod, GenKill.genAt, Method.livenessRules, h]

end Liveness

/-! ## Paths -/

/-- A path of control: from `i` through the nodes of a list, `i` being the first
    of them, to `j`. -/
inductive FlowGraph.Path (g : FlowGraph) : Nat → List Nat → Nat → Prop
  | here (i : Nat) : Path g i [] i
  | step {i s j : Nat} {via : List Nat} :
    s ∈ g.successors i → Path g s via j → Path g i (i :: via) j

namespace Liveness

variable {m : Method} {g : FlowGraph}

/-- A path from the instruction leads to a use of the variable, and no
    instruction before its end assigns it. -/
def ReachesUse (l : Liveness) (g : FlowGraph) (i : Nat) (v : String) : Prop :=
  ∃ via j, g.Path i via j ∧ v ∈ l.uses j ∧ ∀ k ∈ via, v ∉ l.defs k

theorem ReachesUse.step {l : Liveness} {i s : Nat} {v : String} (hs : s ∈ g.successors i)
    (hd : v ∉ l.defs i) (h : l.ReachesUse g s v) : l.ReachesUse g i v := by
  obtain ⟨via, j, hp, hu, hv⟩ := h
  refine ⟨i :: via, j, .step hs hp, hu, fun k hk => ?_⟩
  rcases List.mem_cons.1 hk with rfl | hk
  · exact hd
  · exact hv k hk

/-- What reaches a use is live: no use is missed, around loops either. -/
theorem mem_liveIn_of_reachesUse (h : m.flowGraph = .ok g) {i : Nat} {v : String}
    (hr : (ofMethod m g).ReachesUse g i v) : v ∈ (ofMethod m g).liveIn i := by
  obtain ⟨via, j, hp, hu, hv⟩ := hr
  induction hp with
  | here i =>
    by_cases hi : i < g.size
    · exact (mem_liveIn_iff hi).2 (.inl hu)
    · rw [Method.size_flowGraph h] at hi
      exact absurd hu (not_mem_uses_of_size_le (Nat.le_of_not_lt hi) v)
  | @step i s j via hs _ ih =>
    refine (mem_liveIn_iff (FlowGraph.lt_size_of_mem_successors hs)).2 (.inr ⟨?_, ?_⟩)
    · exact mem_liveOut_iff.2 ⟨s, hs, ih hu fun k hk => hv k (List.mem_cons_of_mem _ hk)⟩
    · exact hv i List.mem_cons_self

/-- What is live reaches a use. This holds of all facts on the way to the
    solution: a name gets into one only from a use. -/
theorem reachesUse_of_mem_liveIn {i : Nat} {v : String} (h : v ∈ (ofMethod m g).liveIn i) :
    (ofMethod m g).ReachesUse g i v := by
  have hstep : ∀ facts, Analysis.Everywhere
      (fun i p => ∀ v ∈ p.exit, (ofMethod m g).ReachesUse g i v) facts →
      ∀ i, ∀ v ∈ (m.livenessRules.analysis.recompute g facts i).exit,
        (ofMethod m g).ReachesUse g i v := by
    intro facts hf i v hv
    rcases Method.mem_exit_recompute.1 hv with hu | ⟨hv, hd⟩
    · exact ⟨[], i, .here i, hu, fun _ hk => absurd hk List.not_mem_nil⟩
    · obtain ⟨s, hs, hv⟩ := Method.mem_entry_recompute.1 hv
      obtain ⟨p, hp, hv⟩ := Method.exists_of_mem_exitAt hv
      exact (hf s p hp v hv).step hs hd
  have hall := Analysis.settle?_keeps (fun _ hf => Analysis.Everywhere.pass hstep hf)
    (solve?_eq_facts m g) (Analysis.everywhere_start fun _ v hv => by
      simp [GenKill.analysis, Method.livenessRules] at hv)
  by_cases hi : i < g.size
  · exact hall i _ (getElem?_facts hi) v h
  · exact absurd h (not_mem_of_size_le (Nat.le_of_not_lt hi) v).1

/-- The live sets of a method with a flow graph are found by a bounded number of
    passes, more of which change nothing. A variable is live before an
    instruction exactly if a path leads from there to a use of it, without an
    assignment to it before the end, and after an instruction exactly if it is
    live before a successor. -/
theorem liveness_exact {m : Method} {g : FlowGraph} (h : m.flowGraph = .ok g) :
    (∀ n, m.livenessRules.passLimit g ≤ n →
      m.livenessRules.analysis.solve? g n = some (ofMethod m g).facts) ∧
    (∀ i v, v ∈ (ofMethod m g).liveIn i ↔
      ∃ via j, g.Path i via j ∧ v ∈ (ofMethod m g).uses j ∧
        ∀ k ∈ via, v ∉ (ofMethod m g).defs k) ∧
    ∀ i v, v ∈ (ofMethod m g).liveOut i ↔
      ∃ s ∈ g.successors i, v ∈ (ofMethod m g).liveIn s := by
  refine ⟨fun n hn => Analysis.settle?_mono (solve?_eq_facts m g) hn, fun i v => ?_, fun i v => ?_⟩
  · exact ⟨reachesUse_of_mem_liveIn, mem_liveIn_of_reachesUse h⟩
  · exact mem_liveOut_iff

/-- A method that counts its parameter down in a loop, by way of a local. -/
def countdown : Method :=
  Method.empty "countdown" true |>.declareParam "n" |>.declareLocal "m"
    |>.label "loop"
    |>.push (.branch (.binary (.compare .less) (.var "n") (.const 1)) "end")
    |>.push (.assign (.var "m") (.binary (.arith .sub) (.var "n") (.const 1)))
    |>.push (.assign (.var "n") (.single (.var "m")))
    |>.push (.goto "loop")
    |>.label "end"
    |>.push (.ret (some (.var "n")))

/-- The parameter is live on the way back to the test, but not before the assignment to
    it, where its value is in the local. -/
theorem liveness_exact_countdown :
    countdown.flowGraph = .ok ⟨#[[4, 1], [2], [3], [0], []]⟩ ∧
      let live := ofMethod countdown ⟨#[[4, 1], [2], [3], [0], []]⟩
      "n" ∈ live.liveIn 3 ∧ "n" ∈ live.liveOut 2 ∧ "n" ∉ live.liveIn 2 ∧ "m" ∈ live.liveIn 2 := by
  have h : countdown.flowGraph = .ok ⟨#[[4, 1], [2], [3], [0], []]⟩ := by rfl
  obtain ⟨-, hin, hout⟩ := liveness_exact h
  have hgoto : "n" ∈ (ofMethod countdown ⟨#[[4, 1], [2], [3], [0], []]⟩).liveIn 3 :=
    (hin 3 "n").2 ⟨[3], 0, .step (by decide) (.here 0), by decide +kernel, by decide +kernel⟩
  refine ⟨h, hgoto, (hout 2 "n").2 ⟨3, by decide, hgoto⟩, fun hn => ?_,
    (hin 2 "m").2 ⟨[], 2, .here 2, by decide +kernel, by decide +kernel⟩⟩
  -- A path from there is at a use at once, or goes on after the assignment.
  obtain ⟨via, j, hpath, huse, hvia⟩ := (hin 2 "n").1 hn
  cases hpath with
  | here => exact absurd huse (by decide +kernel)
  | step => exact hvia 2 List.mem_cons_self (by decide +kernel)

end Liveness

end Midend
