import Midend.Proofs.Constant.FoldingMeaning
import Midend.Proofs.Constant.PropagationMeaning
import Midend.Proofs.Constant.Rounds

/-!
# The shape of optimized programs

Each pass leaves a program that is a tree and well shaped, whether it ends or stops at
an error, and so do all rounds together (`passes_keep_program`). What a pass takes
out of a branch or a body leaves a node in its place: a conditional or a loop that is
still there has all the parts that it had.
-/

namespace Midend

namespace Forest

/-- The forest is consistent, and its root has no parent and reads as a program. -/
def IsProgram (f : Forest) : Prop :=
  f.parent? f.root = none ∧ ∃ t, f.Carries t ∧ t.WellShaped

theorem IsProgram.rooted {f : Forest} (h : f.IsProgram) : f.Rooted := by
  obtain ⟨hroot, t, hf, -⟩ := h
  exact ⟨hf.consistent, hroot⟩

/-- What is left of a program is a program, and the conditionals and loops in it were there
    before, with as many parts. -/
def KeepsProgram (f f' : Forest) : Prop :=
  f'.IsProgram ∧ ∀ i k, f'.inProgram i → f'.kind? i = some k → k = .conditional ∨ k = .loop →
    f.inProgram i ∧ f.kind? i = some k ∧ (f'.children i).length = (f.children i).length

end Forest

namespace Edit

open Forest

variable {f f' : Forest} {t : Tree}

/-- There is progress, and a program is left. -/
def LeavesProgram (f : Forest) (t : Tree) (f' : Forest) : Prop :=
  ∃ t', Progress f t f' t' ∧ t'.WellShaped

theorem LeavesProgram.keepsProgram (hf : f.Carries t) (h : LeavesProgram f t f') :
    f.KeepsProgram f' := by
  obtain ⟨t', hprogress, ht'⟩ := h
  have hf' := hprogress.carries
  refine ⟨⟨hprogress.rooted.parent?_root, t', hf', ht'⟩, fun i k hi hk hc => ?_⟩
  have hmem : i ∈ t'.ids :=
    (hf'.consistent.mem_ids_iff hf'.reads).2 (hf'.root_eq ▸ hprogress.rooted.inProgram_iff.1 hi)
  obtain ⟨u, hu, rfl⟩ := List.mem_map.1 hmem
  have hreads := hf'.reads.of_mem_subtrees hu
  obtain rfl : u.kind = k := Option.some.inj (hreads.kind?_eq.symm.trans hk)
  have hcontrol : u.kind.isControl := by rcases hc with hc | hc <;> rw [hc] <;> rfl
  obtain ⟨v, hv, hroot, hkind, hlen⟩ := hprogress.keepsParts u (by simpa using hu) hcontrol
  have hv : v ∈ t.subtrees := by simpa using hv
  have hreads' := hf.reads.of_mem_subtrees hv
  refine ⟨?_, ?_, ?_⟩
  · refine hf.consistent.isAbove_iff_above.2 ?_
    rw [hf.root_eq, ← hroot]
    exact hf.consistent.above_of_mem_ids hf.reads (List.mem_map_of_mem hv)
  · rw [← hroot, hreads'.kind?_eq, hkind]
  · rw [hreads.children_eq, ← hroot, hreads'.children_eq, List.length_map, List.length_map, hlen]

/-- What makes progress and leaves a well-shaped tree leaves a program. -/
theorem ensures_leavesProgram {x : Edit Bool} (hx : Ensures x f (Advance f t))
    (hshape : Ensures x f fun _ f' => ∃ u, f'.Carries u ∧ u.WellShaped) :
    Ensures x f fun _ f' => LeavesProgram f t f' := by
  refine (hx.and hshape).mono ?_
  rintro r f' ⟨⟨t', hprogress, -⟩, u, hu, hshape⟩
  have hroot : u.root = t'.root := hu.root_eq.symm.trans hprogress.carries.root_eq
  obtain rfl := hu.reads.eq_of_root_eq hprogress.carries.reads hroot
  exact ⟨u, hprogress, hshape⟩

theorem ensures_foldProgram_leavesProgram (hf : f.Rooted) (hcarries : f.Carries t)
    (ht : t.WellShaped) : Ensures foldProgram f fun _ f' => LeavesProgram f t f' := by
  refine ensures_leavesProgram (ensures_foldProgram_advance hf hcarries) ?_
  obtain ⟨i, k, cs⟩ := t
  have hv := Kind.folded_eq_none ht.not_takesOperands
  refine (ensures_foldProgram hcarries ht.not_isControl hv).mono ?_
  rintro r f' ⟨ds, hds, hf'⟩
  exact ⟨_, hf', (hds.wellShaped_node ht hds.wellShaped).1⟩

theorem ensures_propagateProgram_leavesProgram (hf : f.Rooted) (hcarries : f.Carries t)
    (ht : t.WellShaped) : Ensures propagateProgram f fun _ f' => LeavesProgram f t f' := by
  refine ensures_leavesProgram (ensures_propagateProgram_advance hf hcarries) ?_
  rw [propagateProgram_eq, ensures_bind, ensures_get]
  -- The methods stay those that were listed before the first visit.
  refine (ensures_visitAll_of_forall (I := fun f' =>
    ∃ t', f'.Carries t' ∧ t'.WellShaped ∧ f'.methods = f.methods) ?_ ⟨t, hcarries, ht, rfl⟩).mono ?_
  · rintro m hm f₁ ⟨t₁, hf₁, ht₁, hmethods⟩
    refine (ensures_propagateAlone_of_mem hf₁ ht₁ (hmethods ▸ hm)).mono ?_
    rintro r f₂ ⟨t₂, hf₂, ht₂, hsame⟩
    exact ⟨t₂, hf₂, ht₂, hsame.1.trans hmethods⟩
  · rintro r f' ⟨t', hf', ht', -⟩
    exact ⟨t', hf', ht'⟩

theorem ensures_round_leavesProgram {g : Forest} (h : LeavesProgram f t g) :
    Ensures round g fun _ g' => LeavesProgram f t g' := by
  have hstep : ∀ {g u g'}, Progress f t g u → LeavesProgram g u g' → LeavesProgram f t g' :=
    fun h ⟨v, h', hv⟩ => ⟨v, h.trans h', hv⟩
  obtain ⟨u, hu, hshape⟩ := h
  refine (ensures_foldProgram_leavesProgram hu.rooted hu.carries hshape).bind (fun b g₁ h₁ => ?_)
    fun _ _ => hstep hu
  obtain ⟨u₁, hu₁, hshape₁⟩ := hstep hu h₁
  refine (ensures_propagateProgram_leavesProgram hu₁.rooted hu₁.carries hshape₁).bind
    (fun c g₂ h₂ => ?_) fun _ _ => hstep hu₁
  exact hstep hu₁ h₂

end Edit

/-- Folding, propagation and all rounds together keep a program, whether they end or stop at
    an error. -/
theorem passes_keep_program {f : Forest} (hf : f.IsProgram) (s : Settings) :
    f.KeepsProgram (after Edit.foldProgram f) ∧ f.KeepsProgram (after Edit.propagateProgram f) ∧
      f.KeepsProgram (after s.optimizeTree f) := by
  have hrooted := hf.rooted
  obtain ⟨-, t, hcarries, ht⟩ := hf
  have hrefl : Edit.LeavesProgram f t f := ⟨t, .refl hrooted hcarries, ht⟩
  have hafter : ∀ {α : Type} {x : Edit α}, (Ensures x f fun _ f' => Edit.LeavesProgram f t f') →
      f.KeepsProgram (after x f) := fun h => h.after.elim fun _ h => h.keepsProgram hcarries
  refine ⟨hafter (Edit.ensures_foldProgram_leavesProgram hrooted hcarries ht),
    hafter (Edit.ensures_propagateProgram_leavesProgram hrooted hcarries ht), hafter ?_⟩
  rw [Settings.optimizeTree]
  split
  · exact Edit.ensures_roundsWithin_of_round Edit.ensures_round_leavesProgram hrefl f.weight
  · exact hrefl

/-- A conditional the branch of which is a conditional that is never taken. -/
def emptiedBranch : Forest where
  nodes := #[
    { kind := .program, children := [1] },
    { kind := .voidMethod "f", parent := some 0, children := [2] },
    { kind := .conditional, parent := some 1, children := [3, 4] },
    { kind := .identifier "b", parent := some 2 },
    { kind := .conditional, parent := some 2, children := [5, 6] },
    { kind := .boolean false, parent := some 4 },
    { kind := .block, parent := some 4 }]
  root := 0

theorem isProgram_emptiedBranch : emptiedBranch.IsProgram := by
  refine ⟨rfl, .node 0 .program [.node 1 (.voidMethod "f") [
    .node 2 .conditional [.node 3 (.identifier "b") [],
      .node 4 .conditional [.node 5 (.boolean false) [], .node 6 .block []]]]], ⟨?_, ?_, rfl⟩, ?_⟩
  · exact Forest.consistent_of_ordered (by decide) (by decide +kernel) (by decide +kernel)
  · decide +kernel
  · have hexpr : ∀ {i k}, k.takesOperands 0 → Tree.IsExpr (.node i k []) := fun hk =>
      .node _ hk (by simp)
    have hinner : Tree.IsStmt (.node 4 .conditional [.node 5 (.boolean false) [],
      .node 6 .block []]) := .conditional 4 (hexpr rfl) (.inl rfl) (by simpa using .block 6 nofun)
    refine .scope 0 rfl (List.forall_mem_singleton.2 (.method 1 rfl ?_))
    exact List.forall_mem_singleton.2 (.inr (.conditional 2 (hexpr rfl) (.inl rfl)
      (List.forall_mem_singleton.2 hinner)))

theorem passes_keep_program_emptiedBranch :
    emptiedBranch.IsProgram ∧ (after Edit.foldProgram emptiedBranch).children 2 = [3, 7] ∧
      (after Edit.foldProgram emptiedBranch).kind? 7 = some .block ∧
      emptiedBranch.KeepsProgram (after Edit.foldProgram emptiedBranch) ∧
      emptiedBranch.KeepsProgram (after Edit.propagateProgram emptiedBranch) ∧
      emptiedBranch.KeepsProgram (after ({ optimize := true } : Settings).optimizeTree
        emptiedBranch) :=
  ⟨isProgram_emptiedBranch, by decide +kernel, by decide +kernel,
    passes_keep_program isProgram_emptiedBranch _⟩

end Midend
