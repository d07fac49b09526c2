import Mathlib.Data.Finset.Card
import Midend.Proofs.Register.Allocation

/-!
# Colors leave no gaps

Selection gives each node the least color that none of its neighbors has so far,
and no color is changed afterwards. So the neighbors of a node have all the colors
below its own. A color is therefore at most the number of neighbors, and when a
color is in use, all smaller ones are too: the number of colors that counts up to
the largest one is the number of different colors. The same holds of the registers
of the locals after an allocation.

* `packed_of_coloring?`: neighbors have all smaller colors;
* `Packed.exists_color_iff`: the colors in use are the ones counted;
* `Allocated.localRegisters_eq`: the registers that hold locals after an
  allocation.
-/

namespace Midend

/-! ## Colors of neighbors -/

namespace Interference

variable {g : Interference} {k : Nat} {colors : Std.ExtTreeMap String Nat}

theorem mem_taken_of_lt_leastFree? {taken : List Nat} {c d : Nat}
    (h : leastFree? k taken = some c) (hd : d < c) : d ∈ taken := by
  have htaken := (List.find?_range_eq_some.1 h).2.2 d hd
  simpa using htaken

/-- The neighbors of each variable with a color have all smaller colors. -/
def Packed (g : Interference) (colors : Std.ExtTreeMap String Nat) : Prop :=
  ∀ ⦃v : String⦄ ⦃x : Nat⦄, colors[v]? = some x →
    ∀ y < x, ∃ w ∈ g.neighbors v, colors[w]? = some y

theorem Packed.insert (hp : g.Packed colors) {v : String} {c : Nat} (hv : v ∉ colors)
    (hc : leastFree? k ((g.neighborList v).filterMap (colors[·]?)) = some c) :
    g.Packed (colors.insert v c) := by
  -- What has a color is another variable, and keeps it.
  have hkeep : ∀ {w : String} {y : Nat}, colors[w]? = some y →
      (colors.insert v c)[w]? = some y := by
    intro w y hw
    rw [Std.ExtTreeMap.getElem?_insert, if_neg]
    · exact hw
    · rw [Std.compare_eq_iff_eq]
      rintro rfl
      exact hv (Std.ExtTreeMap.mem_iff_isSome_getElem?.2 (Option.isSome_of_eq_some hw))
  intro u x hu y hy
  rw [Std.ExtTreeMap.getElem?_insert] at hu
  split at hu
  next huv =>
    obtain rfl := Std.compare_eq_iff_eq.1 huv
    cases hu
    obtain ⟨w, hw, hwy⟩ := List.mem_filterMap.1 (mem_taken_of_lt_leastFree? hc hy)
    exact ⟨w, (mem_neighborList.1 hw).2, hkeep hwy⟩
  next =>
    obtain ⟨w, hw, hwy⟩ := hp hu y hy
    exact ⟨w, hw, hkeep hwy⟩

theorem packed_of_select? (h : g.Undirected) {vs : List String} (hvs : vs.Nodup)
    (hs : g.select? k vs = some colors) : g.Packed colors := by
  induction vs generalizing colors with
  | nil =>
    cases hs
    intro v x hx
    simp at hx
  | cons v vs ih =>
    simp only [select?, Option.bind_eq_bind, Option.bind_eq_some_iff] at hs
    obtain ⟨colors', hcolors, c, hc, hs⟩ := hs
    cases hs
    rw [List.nodup_cons] at hvs
    have hv : v ∉ colors' := fun hv => hvs.1 (((selected_of_select? h hcolors).mem_iff v).1 hv)
    exact (ih hvs.2 hcolors).insert hv hc

theorem packed_of_coloring? (h : g.Undirected) {c : Coloring} (hc : g.coloring? k = some c) :
    g.Packed c.colors := by
  obtain ⟨removed, hr, colors, hcolors, rfl⟩ := coloring?_eq_some_iff.1 hc
  obtain ⟨hperm, _⟩ := peels_of_simplify? h (counted_whole h) rfl hr
  exact packed_of_select? h (hperm.nodup_iff.2 h.nodup_vars) hcolors

/-- A color is at most the number of neighbors. -/
theorem Packed.le_size (hp : g.Packed colors) {v : String} {x : Nat} (hx : colors[v]? = some x) :
    x ≤ (g.neighbors v).size := by
  have hsub : List.range x ⊆ (g.neighbors v).toList.filterMap (colors[·]?) := by
    intro y hy
    obtain ⟨w, hw, hwy⟩ := hp hx y (List.mem_range.1 hy)
    exact List.mem_filterMap.2 ⟨w, Std.ExtTreeSet.mem_toList.2 hw, hwy⟩
  calc x = (List.range x).length := List.length_range.symm
    _ ≤ ((g.neighbors v).toList.filterMap (colors[·]?)).length :=
      (List.nodup_range.subperm hsub).length_le
    _ ≤ (g.neighbors v).toList.length := List.length_filterMap_le _ _
    _ = (g.neighbors v).size := Std.ExtTreeSet.length_toList

end Interference

/-! ## Colors in use -/

theorem Coloring.lt_used_iff {c : Coloring} {x : Nat} :
    x < c.used ↔ ∃ (v : String) (y : Nat), c.colors[v]? = some y ∧ x ≤ y := by
  suffices h : ∀ (ps : List (String × Nat)) (n : Nat),
      x < ps.foldl (fun n p => max n (p.2 + 1)) n ↔ x < n ∨ ∃ p ∈ ps, x ≤ p.2 by
    rw [used, Std.ExtTreeMap.foldl_eq_foldl_toList, h]
    simp [Std.ExtTreeMap.mem_toList_iff_getElem?_eq_some]
  intro ps
  induction ps with
  | nil => simp
  | cons p ps ih =>
    intro n
    rw [List.foldl_cons, ih, lt_max_iff, Nat.lt_succ_iff, or_assoc, List.exists_mem_cons_iff]

/-- The colors in use are those below the number of colors used. -/
theorem Interference.Packed.exists_color_iff {g : Interference} {c : Coloring}
    (hp : g.Packed c.colors) {x : Nat} :
    (∃ v : String, c.colors[v]? = some x) ↔ x < c.used := by
  rw [Coloring.lt_used_iff]
  constructor
  · rintro ⟨v, hv⟩
    exact ⟨v, x, hv, Nat.le_refl x⟩
  · rintro ⟨v, y, hv, hxy⟩
    rcases Nat.eq_or_lt_of_le hxy with rfl | hlt
    · exact ⟨v, hv⟩
    · obtain ⟨w, _, hw⟩ := hp hv x hlt
      exact ⟨w, hw⟩

/-! ## Registers in use -/

namespace Method

/-- The registers that hold locals. -/
def localRegisters (m : Method) : Finset Nat := (m.locals.filterMap m.register?).toFinset

theorem mem_locals_iff_scope? {m : Method} {x : String} :
    x ∈ m.locals ↔ m.scope? x = some .localVar := by
  rw [mem_locals, scope?, Option.map_eq_some_iff]

/-- After an allocation the locals hold the registers of the colors in use. -/
theorem Allocated.localRegisters_eq {m m' : Method} {g : FlowGraph} {c : Coloring}
    (h : Allocated m m' g c) :
    m'.localRegisters = (Finset.range c.used).image (m.reserved + ·) := by
  have hpacked := Interference.packed_of_coloring? (Interference.undirected_ofLiveness m _)
    h.coloring?_eq
  have hlocals : ∀ x, x ∈ m'.locals ↔ x ∈ m.locals := fun x => by
    rw [mem_locals_iff_scope?, mem_locals_iff_scope?, h.rewritten.scope_eq]
  ext r
  simp only [localRegisters, List.mem_toFinset, List.mem_filterMap, Finset.mem_image,
    Finset.mem_range, ← hpacked.exists_color_iff]
  constructor
  · rintro ⟨x, hx, hr⟩
    obtain ⟨n, hn, hxr⟩ := h.register_local ((hlocals x).1 hx)
    rw [hxr, Option.some.injEq] at hr
    exact ⟨n, ⟨x, hn⟩, hr⟩
  · rintro ⟨n, ⟨x, hn⟩, rfl⟩
    have hx : x ∈ m.locals := by
      have hmem := h.proper.mem_vars hn
      rwa [Interference.vars_ofLiveness] at hmem
    obtain ⟨n', hn', hxr⟩ := h.register_local hx
    rw [hn, Option.some.injEq] at hn'
    exact ⟨x, (hlocals x).2 hx, hn' ▸ hxr⟩

theorem Allocated.card_localRegisters {m m' : Method} {g : FlowGraph} {c : Coloring}
    (h : Allocated m m' g c) : m'.localRegisters.card = c.used := by
  rw [h.localRegisters_eq, Finset.card_image_of_injective _ (add_right_injective m.reserved),
    Finset.card_range]

end Method

/-- In every coloring that is found for a graph that was built, the neighbors of a
    node have all the colors below its own; so the colors in use are the ones up to
    the largest, and a color is at most the number of neighbors. The number of
    registers of a successful allocation is therefore the number of reserved ones
    and of different registers that hold locals. -/
theorem colors_leave_no_gaps :
    (∀ history k c, (Interference.build history).coloring? k = some c →
      (∀ (v : String) x, c.colors[v]? = some x → ∀ y < x,
        ∃ w, (Interference.build history).hasEdge v w ∧ c.colors[w]? = some y) ∧
      (∀ x, (∃ v : String, c.colors[v]? = some x) ↔ x < c.used) ∧
      ∀ (v : String) x, c.colors[v]? = some x →
        x ≤ ((Interference.build history).neighbors v).size) ∧
    ∀ m budget a m', Method.allocate budget m = .ok a m' →
      a.registers = m.reserved + m'.localRegisters.card := by
  refine ⟨fun history k c hc => ?_, fun m budget a m' ha => ?_⟩
  · have hp := Interference.packed_of_coloring? (Interference.undirected_build history) hc
    refine ⟨fun v x hx y hy => ?_, fun x => hp.exists_color_iff, fun v x => hp.le_size⟩
    obtain ⟨w, hw, hwy⟩ := hp hx y hy
    exact ⟨w, Interference.hasEdge_iff.2 hw, hwy⟩
  · obtain ⟨hregisters, g, h⟩ := Method.registers_of_allocate_eq_ok ha
    rw [hregisters, h.card_localRegisters]

/-- A path of four nodes, of which the inner ones are added first. They are the last
    to get a color, and the first of them gets a third one. -/
def Interference.pathFromInside : List Addition :=
  [.node "c", .node "b", .node "d", .node "a", .edge "a" "b", .edge "b" "c", .edge "c" "d"]

/-- An instance method of a parameter `p` with three locals, at most two of which
    are live together. -/
def Method.chainedSums : Method :=
  Method.empty "f" false |>.declareParam "p" |>.declareLocal "a" |>.declareLocal "b"
    |>.declareLocal "c"
    |>.push (.assign (.var "a") (.binary (.arith .add) (.var "p") (.const 1)))
    |>.push (.assign (.var "b") (.binary (.arith .add) (.var "a") (.const 1)))
    |>.push (.assign (.var "c") (.binary (.arith .add) (.var "b") (.var "a")))
    |>.push (.ret (some (.var "c")))

theorem colors_leave_no_gaps_chainedSums :
    (let g := Interference.build Interference.pathFromInside
      ∃ c, g.coloring? 3 = some c ∧ c.colors["c"]? = some 2 ∧
        ∃ w, g.hasEdge "c" w ∧ c.colors[w]? = some 1) ∧
    let m' := after (Method.allocate (.atMost 7)) .chainedSums
    ∃ a, Method.allocate (.atMost 7) .chainedSums = .ok a m' ∧ a.registers = 4 := by
  obtain ⟨hgraph, hmethod⟩ := colors_leave_no_gaps
  constructor
  · intro g
    obtain ⟨c, hc⟩ : ∃ c, g.coloring? 3 = some c :=
      Option.isSome_iff_exists.1 (by decide +kernel)
    have htwo : (g.coloring? 3).bind (·.colors["c"]?) = some 2 := by decide +kernel
    rw [hc, Option.bind_some] at htwo
    exact ⟨c, hc, htwo, (hgraph _ 3 c hc).1 "c" 2 htwo 1 (by decide)⟩
  · obtain ⟨a, ha⟩ := eq_ok_of_succeeds (x := Method.allocate (.atMost 7)) (s := .chainedSums)
      (by decide +kernel)
    refine ⟨a, ha, (hmethod _ _ _ _ ha).trans ?_⟩
    decide +kernel

end Midend
