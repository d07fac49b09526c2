import Midend.Proofs.Literal
import Midend.Proofs.Tree.Edit

/-!
# Attributes read as they were set

Reading and setting the attributes of a kind are two tables, which fit each other. An
attribute that was set reads as what it was set to, a literal in its canonical form
(`Kind.ReadsBack`), and nothing else of the kind has changed (`Kind.SetTo`). What an
attribute reads can be set again and changes nothing. The name of the main method is
the only attribute that can be read and not set.

A node whose attribute cannot be set keeps its kind, with all that is around it.

* `Kind.setTo_of_set`: what setting an attribute does;
* `Kind.set_of_get?`: what reads can be set;
* `Kind.attributes_read_as_set`: the laws, for attributes by name and at a node.
-/

namespace Midend

namespace Kind

variable {k k' : Kind} {a : Attribute} {v w : String}

/-! ## Single attributes -/

/-- A text that an attribute was set to reads back: a literal in its canonical form,
    anything else as it is. -/
def ReadsBack (k : Kind) (v w : String) : Prop :=
  match k.literal? with
  | some l => l.HasText v ∧ l.HasCanonicalText w
  | none => w = v

/-- An attribute was set to a text, and nothing else has changed. -/
structure SetTo (k : Kind) (a : Attribute) (v : String) (k' : Kind) : Prop where
  label_eq : k'.label = k.label
  reads : ∃ w, k'.get? a = some w ∧ k'.ReadsBack v w
  others : ∀ b, b ≠ a → k'.get? b = k.get? b

theorem SetTo.of_literal {l : Literal} (hlabel : k'.label = k.label) (hl : k'.literal? = some l)
    (hget : k'.get? a = some l.text) (hv : l.HasText v)
    (hothers : ∀ b, b ≠ a → k'.get? b = k.get? b) : k.SetTo a v k' where
  label_eq := hlabel
  reads := ⟨l.text, hget, by rw [ReadsBack, hl]; exact ⟨hv, l.hasCanonicalText_text⟩⟩
  others := hothers

theorem SetTo.of_text (hlabel : k'.label = k.label) (hl : k'.literal? = none)
    (hget : k'.get? a = some v) (hothers : ∀ b, b ≠ a → k'.get? b = k.get? b) :
    k.SetTo a v k' where
  label_eq := hlabel
  reads := ⟨v, hget, by rw [ReadsBack, hl]⟩
  others := hothers

/-- Setting an attribute sets it, and nothing else. -/
theorem setTo_of_set (h : k.set a v = .ok k') : k.SetTo a v k' := by
  -- What the other attributes read is left to the end.
  cases k <;> cases a <;> try cases h
  case' integer.value =>
    rw [set] at h
    split at h <;> cases h
    rename_i n hn
    refine .of_literal (l := .int n) rfl rfl rfl (Decimal.readInt32?_eq_some_iff.1 hn) ?_
  case' boolean.value =>
    rw [set] at h
    split at h <;> cases h
    rename_i b hb
    refine .of_literal (l := .bool b) rfl rfl rfl (Literal.readBool?_eq_some_iff.1 hb) ?_
  case' arithmetic.op =>
    obtain ⟨op, hop, rfl⟩ := exists_of_map_eq_ok h
    refine .of_text rfl rfl (congrArg some (Arith.family.parse_eq_ok_iff.1 hop).symm) ?_
  case' comparison.op =>
    obtain ⟨op, hop, rfl⟩ := exists_of_map_eq_ok h
    refine .of_text rfl rfl (congrArg some (Compare.family.parse_eq_ok_iff.1 hop).symm) ?_
  case' logical.op =>
    obtain ⟨op, hop, rfl⟩ := exists_of_map_eq_ok h
    refine .of_text rfl rfl (congrArg some (Logic.family.parse_eq_ok_iff.1 hop).symm) ?_
  case' identifier.value | assignment.varname | arrayAssignment.varname | method.methodname
      | voidMethod.methodname | call.methodname | importDecl.name | classDecl.name | varDecl.name
      | param.name | newObject.name | varDecl.type | param.type | classDecl.superclass =>
    refine .of_text rfl rfl rfl ?_
  all_goals
    intro b hb
    cases b <;> first | rfl | exact absurd rfl hb

/-- What an attribute reads can be set again and changes nothing, except for the name of the
    main method. -/
theorem set_of_get? (hk : k ≠ mainMethod) (h : k.get? a = some v) : k.set a v = .ok k := by
  cases k <;> cases a <;> cases h
  case integer.value n => rw [set, Decimal.readInt32?_text]
  case boolean.value b => cases b <;> rfl
  case arithmetic.op op => cases op <;> rfl
  case comparison.op op => cases op <;> rfl
  case logical.op op => cases op <;> rfl
  case mainMethod.methodname => exact absurd rfl hk
  all_goals rfl

/-! ## Attributes by name -/

theorem attribute?_key (k : Kind) (a : Attribute) : k.attribute? a.key = k.get? a := by
  rw [attribute?, Attribute.ofKey?_eq_some_iff.2 rfl, Option.bind_some]

theorem setAttribute_key (k : Kind) (a : Attribute) (v : String) :
    k.setAttribute a.key v = k.set a v := by
  rw [setAttribute, Attribute.ofKey?_eq_some_iff.2 rfl]

theorem exists_key_of_attribute? {name : String} (h : k.attribute? name = some v) :
    ∃ a : Attribute, name = a.key := by
  obtain ⟨a, ha, -⟩ := Option.bind_eq_some_iff.1 h
  exact ⟨a, Attribute.ofKey?_eq_some_iff.1 ha⟩

theorem exists_key_of_setAttribute {name : String} (h : k.setAttribute name v = .ok k') :
    ∃ a : Attribute, name = a.key := by
  rw [setAttribute] at h
  split at h
  next a ha => exact ⟨a, Attribute.ofKey?_eq_some_iff.1 ha⟩
  next => cases h

/-- Kinds that agree on all attributes but one agree on all names but one. -/
theorem attribute?_eq_of_get?_eq (h : ∀ b, b ≠ a → k'.get? b = k.get? b) {name : String}
    (hname : name ≠ a.key) : k'.attribute? name = k.attribute? name := by
  rw [attribute?, attribute?]
  cases hb : Attribute.ofKey? name with
  | none => rfl
  | some b =>
    refine h b ?_
    rintro rfl
    exact hname (Attribute.ofKey?_eq_some_iff.1 hb)

/-- The name of the main method cannot be set. -/
theorem setAttribute_mainMethod (name v : String) :
    mainMethod.setAttribute name v = .error (.malformed (.noAttribute "MainMethodDecl" name)) := by
  rw [setAttribute]
  split
  next a ha =>
    obtain rfl := Attribute.ofKey?_eq_some_iff.1 ha
    cases a <;> rfl
  next => rfl

end Kind

namespace Edit

variable {f : Forest} {i : NodeId} {k k' : Kind} {name v : String}

theorem setAttribute_eq_ok (hk : f.kind? i = some k) (h : k.setAttribute name v = .ok k') :
    setAttribute i name v f = .ok () (f.setKind i k') := by
  refine Ensures.eq_ok ?_
  simp [setAttribute, hk, ensures_ask, h]

/-- A node whose attribute cannot be set keeps its kind, and the forest is what it was. -/
theorem setAttribute_eq_error {e : Error} (hk : f.kind? i = some k)
    (h : k.setAttribute name v = .error e) : setAttribute i name v f = .error e f := by
  refine Ensures.eq_error ?_
  simp [setAttribute, hk, ensures_ask, h]

end Edit

namespace Kind

/-- The laws of attributes. One that was set reads as the text, a literal in its canonical form;
    all others read as before, and the label is the same. One that cannot be set leaves the
    node as it was. What an attribute reads can be set again and changes nothing, except for
    the name of the main method, which can never be set. -/
theorem attributes_read_as_set (k : Kind) (name v : String) :
    (∀ k', k.setAttribute name v = .ok k' →
      (∃ w, k'.attribute? name = some w ∧ k'.ReadsBack v w) ∧
      (∀ other, other ≠ name → k'.attribute? other = k.attribute? other) ∧
      k'.label = k.label) ∧
    (∀ (f : Forest) (i : NodeId), f.kind? i = some k →
      (∀ k', k.setAttribute name v = .ok k' →
        Edit.setAttribute i name v f = .ok () (f.setKind i k')) ∧
      ∀ e, k.setAttribute name v = .error e → Edit.setAttribute i name v f = .error e f) ∧
    (k.attribute? name = some v →
      (k.setAttribute name v = .ok k ↔ ¬ (k = mainMethod ∧ name = "methodname"))) ∧
    mainMethod.attribute? "methodname" = some "main" ∧
    ∃ e, mainMethod.setAttribute "methodname" v = .error e := by
  refine ⟨fun k' h => ?_, fun f i hk => ⟨fun _ => Edit.setAttribute_eq_ok hk,
    fun _ => Edit.setAttribute_eq_error hk⟩, fun h => ⟨?_, fun hne => ?_⟩, rfl,
    _, setAttribute_mainMethod _ v⟩
  · obtain ⟨a, rfl⟩ := exists_key_of_setAttribute h
    rw [setAttribute_key] at h
    obtain ⟨hlabel, hreads, hothers⟩ := setTo_of_set h
    rw [attribute?_key]
    exact ⟨hreads, fun _ => attribute?_eq_of_get?_eq hothers, hlabel⟩
  · rintro hset ⟨rfl, -⟩
    rw [setAttribute_mainMethod] at hset
    cases hset
  · obtain ⟨a, rfl⟩ := exists_key_of_attribute? h
    rw [attribute?_key] at h
    rw [setAttribute_key]
    refine set_of_get? ?_ h
    rintro rfl
    -- The main method has no other attribute than its name.
    cases a <;> first | exact hne ⟨rfl, rfl⟩ | cases h

/-- An integer that is set from a text with a leading zero reads without it, and is not set
    from the name of a truth value. -/
theorem attributes_read_as_set_paddedInteger :
    (integer 7).setAttribute "value" "-042" = .ok (integer (-42)) ∧
      (integer (-42)).attribute? "value" = some "-42" ∧ (integer (-42)).ReadsBack "-042" "-42" ∧
      (integer (-42)).setAttribute "value" "-42" = .ok (integer (-42)) ∧
      Edit.setAttribute 0 "value" "true" (.single (integer 7)) =
        .error (.malformed (.notInteger "true")) (.single (integer 7)) := by
  have hset : (integer 7).setAttribute "value" "-042" = .ok (integer (-42)) := by rfl
  have hget : (integer (-42)).attribute? "value" = some "-42" := by rfl
  obtain ⟨⟨w, hw, hreads⟩, -⟩ := (attributes_read_as_set (integer 7) "value" "-042").1 _ hset
  obtain rfl : "-42" = w := Option.some.inj (hget.symm.trans hw)
  refine ⟨hset, hget, hreads, ?_, ?_⟩
  · exact ((attributes_read_as_set (integer (-42)) "value" "-42").2.2.1 hget).2 (by decide)
  · exact ((attributes_read_as_set (integer 7) "value" "true").2.1 _ 0 rfl).2 _ rfl

end Kind

end Midend
