import Mathlib.Data.List.Basic
import Mathlib.Data.Nat.Digits.Defs
import Midend.Literal

/-!
# Texts of literals

An integer is written by a *numeral*: at most one sign and then decimal digits, of
which there is at least one. The value of a numeral is that of its digits in base ten,
with the sign. Many numerals have the same value, since a plus sign and leading zeros
do not matter; the one that is *canonical* has neither, and is the text that integers
are given.

Reading is the inverse of writing. It accepts exactly the numerals whose value fits
the word, with this value, and a literal is read from exactly the texts that write it
(`Literal.HasText`).

* `Decimal.readInt32?_eq_some_iff`: which texts are read as an integer;
* `Numeral.exists_canonical`: the text of an integer is canonical;
* `Literal.literal_texts_decoded_exactly`: which texts are read as a literal.
-/

namespace Midend

/-- The sign of a numeral. -/
inductive Sign
  | plus
  | minus
  deriving DecidableEq, Repr

/-- How a sign is written. -/
def Sign.char : Sign → Char
  | plus => '+'
  | minus => '-'

/-- A written integer. -/
structure Numeral where
  /-- The sign, if there is one. -/
  sign? : Option Sign
  /-- The digits, from the most significant one on. -/
  digits : List (Fin 10)
  digits_ne_nil : digits ≠ []

namespace Numeral

/-- How digits are written. -/
def digitChars (ds : List (Fin 10)) : List Char := ds.map fun d => Nat.digitChar d.val

/-- The number that digits stand for in base ten. -/
def magnitude (ds : List (Fin 10)) : Nat := Nat.ofDigits 10 (ds.reverse.map Fin.val)

/-- The characters of a numeral. -/
def chars (n : Numeral) : List Char := (n.sign?.map Sign.char).toList ++ digitChars n.digits

/-- The text of a numeral. -/
def text (n : Numeral) : String := String.ofList n.chars

/-- The integer that a numeral writes. -/
def value (n : Numeral) : Int :=
  match n.sign? with
  | some .minus => -(magnitude n.digits : Int)
  | _ => magnitude n.digits

/-- Nothing can be left out: there is no plus sign, a leading zero is the only digit, and
    zero has no sign. -/
structure IsCanonical (n : Numeral) : Prop where
  sign?_ne_plus : n.sign? ≠ some .plus
  of_leading_zero : n.digits.head? = some 0 → n.digits = [0] ∧ n.sign? = none

/-! ## Digits -/

theorem isDigit_iff_digitChar {c : Char} : c.isDigit ↔ ∃ d : Fin 10, c = Nat.digitChar d.val := by
  constructor
  · intro h
    obtain ⟨hlow, hhigh⟩ := Char.isDigit_iff_toNat.1 h
    simp only [show '0'.toNat = 48 from rfl, show '9'.toNat = 57 from rfl] at hlow hhigh
    have hlt : c.toNat - 48 < 10 := by omega
    refine ⟨⟨c.toNat - 48, hlt⟩, Char.toNat_inj.1 ?_⟩
    rw [Nat.toNat_digitChar_of_lt_ten hlt]
    omega
  · rintro ⟨d, rfl⟩
    rw [Nat.isDigit_digitChar]
    exact decide_eq_true d.isLt

theorem all_isDigit_iff_digitChars {cs : List Char} :
    cs.all Char.isDigit ↔ ∃ ds, cs = digitChars ds := by
  induction cs with
  | nil => exact iff_of_true rfl ⟨[], rfl⟩
  | cons c cs ih =>
    rw [List.all_cons, Bool.and_eq_true, isDigit_iff_digitChar, ih]
    constructor
    · rintro ⟨⟨d, rfl⟩, ds, rfl⟩
      exact ⟨d :: ds, rfl⟩
    · rintro ⟨ds, hds⟩
      cases ds with
      | nil => cases hds
      | cons d ds =>
        cases hds
        exact ⟨⟨d, rfl⟩, ds, rfl⟩

/-- Reading digits from the left gives the number that they stand for. -/
theorem ofDigitChars_digitChars (ds : List (Fin 10)) :
    Nat.ofDigitChars 10 (digitChars ds) 0 = magnitude ds := by
  induction ds with
  | nil => rfl
  | cons d ds ih =>
    have hd : digitChars (d :: ds) = Nat.digitChar d.val :: digitChars ds := rfl
    have hlength : (digitChars ds).length = (ds.reverse.map Fin.val).length := by
      simp [digitChars]
    rw [hd, Nat.ofDigitChars_cons_digitChar_of_lt_ten d.isLt, Nat.mul_zero, Nat.zero_add,
      Nat.ofDigitChars_eq_ofDigitChars_zero, ih, hlength, Nat.add_comm]
    simp only [magnitude, List.reverse_cons, List.map_append, List.map_cons, List.map_nil,
      Nat.ofDigits_append, Nat.ofDigits_singleton]

end Numeral

namespace Decimal

open Numeral (digitChars magnitude all_isDigit_iff_digitChars ofDigitChars_digitChars)

theorem digits?_eq_some_iff {cs : List Char} {n : Nat} :
    digits? cs = some n ↔ ∃ ds, ds ≠ [] ∧ cs = digitChars ds ∧ n = magnitude ds := by
  rw [digits?, Option.ite_none_right_eq_some, all_isDigit_iff_digitChars, Option.some.injEq]
  constructor
  · rintro ⟨⟨hne, ds, rfl⟩, rfl⟩
    exact ⟨ds, fun hnil => hne (congrArg digitChars hnil), rfl, ofDigitChars_digitChars ds⟩
  · rintro ⟨ds, hne, rfl, rfl⟩
    exact ⟨⟨fun hnil => hne (List.map_eq_nil_iff.1 hnil), ds, rfl⟩, ofDigitChars_digitChars ds⟩

/-- Exactly the numerals are read, with their value. -/
theorem readChars?_eq_some_iff {cs : List Char} {z : Int} :
    readChars? cs = some z ↔ ∃ n : Numeral, cs = n.chars ∧ z = n.value := by
  constructor
  · intro h
    unfold readChars? at h
    split at h
    all_goals
      obtain ⟨m, hm, rfl⟩ := Option.map_eq_some_iff.1 h
      obtain ⟨ds, hne, rfl, rfl⟩ := digits?_eq_some_iff.1 hm
    · exact ⟨⟨some .minus, ds, hne⟩, rfl, rfl⟩
    · exact ⟨⟨some .plus, ds, hne⟩, rfl, rfl⟩
    · exact ⟨⟨none, ds, hne⟩, rfl, rfl⟩
  · rintro ⟨⟨sign?, ds, hne⟩, rfl, rfl⟩
    have hds : digits? (digitChars ds) = some (magnitude ds) :=
      digits?_eq_some_iff.2 ⟨ds, hne, rfl, rfl⟩
    match sign? with
    | none => exact readChars?_eq_of_digits? hds
    | some .plus => exact congrArg (Option.map Int.ofNat) hds
    | some .minus => exact congrArg (Option.map fun n : Nat => -(n : Int)) hds

theorem read?_eq_some_iff {s : String} {z : Int} :
    read? s = some z ↔ ∃ n : Numeral, s = n.text ∧ z = n.value := by
  rw [read?, readChars?_eq_some_iff]
  simp only [Numeral.text, ← String.toList_inj, String.toList_ofList]

/-- The integers of 32 bits are those from -2147483648 to 2147483647. -/
theorem exists_toInt_eq_iff {z : Int} :
    (∃ v : Int32, v.toInt = z) ↔ -2147483648 ≤ z ∧ z ≤ 2147483647 := by
  constructor
  · rintro ⟨v, rfl⟩
    exact ⟨v.minValue_le_toInt, v.toInt_le⟩
  · rintro ⟨hlow, hhigh⟩
    exact ⟨.ofIntLE z hlow hhigh, Int32.toInt_ofIntLE⟩

/-- Exactly the numerals whose value has 32 bits are read as such, with their value. -/
theorem readInt32?_eq_some_iff {s : String} {v : Int32} :
    readInt32? s = some v ↔ ∃ n : Numeral, s = n.text ∧ n.value = v.toInt := by
  simp only [readInt32?, Option.bind_eq_some_iff, Option.ite_none_right_eq_some, Option.some.injEq,
    read?_eq_some_iff]
  constructor
  · rintro ⟨_, ⟨n, rfl, rfl⟩, ⟨hlow, hhigh⟩, rfl⟩
    refine ⟨n, rfl, ?_⟩
    obtain ⟨v, hv⟩ := exists_toInt_eq_iff.2 ⟨hlow, hhigh⟩
    rw [← hv, Int32.ofInt_toInt]
  · rintro ⟨n, rfl, hv⟩
    exact ⟨v.toInt, ⟨n, rfl, hv.symm⟩, ⟨v.minValue_le_toInt, v.toInt_le⟩, v.ofInt_toInt⟩

@[simp] theorem readInt32?_text (v : Int32) : readInt32? (text v.toInt) = some v := by
  obtain ⟨n, hn, hv⟩ := read?_eq_some_iff.1 (read?_text v.toInt)
  exact readInt32?_eq_some_iff.2 ⟨n, hn, hv.symm⟩

end Decimal

/-! ## Canonical numerals -/

namespace Numeral

/-- Only zero is written with a leading zero. -/
theorem eq_zero_of_head?_toDigits {m : Nat} (h : (Nat.toDigits 10 m).head? = some '0') : m = 0 := by
  induction m using Nat.strong_induction_on with
  | _ m ih =>
    rw [Nat.toDigits_eq_if (by decide)] at h
    split at h
    next => exact Nat.digitChar_eq_zero.1 (Option.some.inj h)
    next hm =>
      rw [List.head?_append_of_ne_nil _ Nat.toDigits_ne_nil] at h
      have := ih (m / 10) (by omega) h
      omega

/-- The digits of a number have no leading zero, unless the number is zero. -/
theorem exists_digits (m : Nat) : ∃ ds, ds ≠ [] ∧ digitChars ds = Nat.toDigits 10 m ∧
    magnitude ds = m ∧ (ds.head? = some 0 → m = 0 ∧ ds = [0]) := by
  obtain ⟨ds, hne, hchars, hvalue⟩ := Decimal.digits?_eq_some_iff.1 (Decimal.digits?_toDigits m)
  refine ⟨ds, hne, hchars.symm, hvalue.symm, fun hzero => ?_⟩
  have hm : m = 0 := by
    refine eq_zero_of_head?_toDigits ?_
    rw [hchars, digitChars, List.head?_map, hzero]
    rfl
  have hlength : ds.length = 1 := by
    rw [← List.length_map, ← digitChars, ← hchars, hm, Nat.toDigits_zero]
    rfl
  obtain ⟨d, rfl⟩ := List.length_eq_one_iff.1 hlength
  cases hzero
  exact ⟨hm, rfl⟩

/-- The text of an integer is canonical. -/
theorem exists_canonical (z : Int) :
    ∃ n : Numeral, n.IsCanonical ∧ Decimal.text z = n.text ∧ n.value = z := by
  rw [Decimal.text, Int.repr_eq_if]
  split
  next hz =>
    obtain ⟨ds, hne, hchars, hvalue, hzero⟩ := exists_digits z.toNat
    refine ⟨⟨none, ds, hne⟩, ⟨Option.some_ne_none _ |>.symm, fun h => ⟨(hzero h).2, rfl⟩⟩, ?_, ?_⟩
    · rw [Nat.repr_eq_ofList_toDigits, ← hchars]
      rfl
    · rw [value, hvalue, Int.toNat_of_nonneg hz]
  next hz =>
    obtain ⟨ds, hne, hchars, hvalue, hzero⟩ := exists_digits (-z).toNat
    have hpos : ((-z).toNat : Int) = -z := Int.toNat_of_nonneg (by omega)
    refine ⟨⟨some .minus, ds, hne⟩, ⟨by simp, fun h => ?_⟩, ?_, ?_⟩
    · have := (hzero h).1
      omega
    · rw [Nat.repr_eq_ofList_toDigits, ← hchars, text, chars, ← String.toList_inj]
      simp [Sign.char]
    · rw [value, hvalue, hpos, Int.neg_neg]

end Numeral

/-! ## Literals -/

namespace Literal

/-- A text writes a literal: a truth value by its name, an integer by a numeral. -/
def HasText : Literal → String → Prop
  | bool true, s => s = "true"
  | bool false, s => s = "false"
  | int v, s => ∃ n : Numeral, s = n.text ∧ n.value = v.toInt

/-- A text writes a literal in the canonical way. -/
def HasCanonicalText : Literal → String → Prop
  | bool true, s => s = "true"
  | bool false, s => s = "false"
  | int v, s => ∃ n : Numeral, n.IsCanonical ∧ s = n.text ∧ n.value = v.toInt

theorem hasCanonicalText_text (l : Literal) : l.HasCanonicalText l.text := by
  match l with
  | int v => exact Numeral.exists_canonical v.toInt
  | bool true => rfl
  | bool false => rfl

theorem readBool?_eq_some_iff {s : String} {b : Bool} :
    readBool? s = some b ↔ (bool b).HasText s := by
  constructor
  · intro h
    unfold readBool? at h
    split at h <;> cases h <;> rfl
  · intro h
    cases b <;> cases h <;> rfl

/-- The names of the truth values are no numerals. -/
theorem readInt32?_eq_none_of_bool {s : String} {b : Bool} (h : (bool b).HasText s) :
    Decimal.readInt32? s = none := by
  cases b <;> cases h <;> decide

/-- A literal is read from the texts that write it. -/
theorem parse_eq_ok_iff {s : String} {l : Literal} : parse s = .ok l ↔ l.HasText s := by
  have hbool : ∀ b, readBool? s = some b ↔ (bool b).HasText s := fun _ => readBool?_eq_some_iff
  have hint : ∀ v, Decimal.readInt32? s = some v ↔ (int v).HasText s := fun _ =>
    Decimal.readInt32?_eq_some_iff
  rw [parse]
  cases hb : readBool? s with
  | some b =>
    have hnone := readInt32?_eq_none_of_bool ((hbool b).1 hb)
    cases l with
    | bool b' => simp [← hbool, hb]
    | int v => simp [← hint, hnone]
  | none =>
    cases hv : Decimal.readInt32? s with
    | some v => cases l <;> simp [← hbool, ← hint, hb, hv]
    | none => cases l <;> simp [← hbool, ← hint, hb, hv]

theorem HasCanonicalText.hasText {l : Literal} {s : String} (h : l.HasCanonicalText s) :
    l.HasText s := by
  match l, h with
  | int _, ⟨n, _, hn⟩ => exact ⟨n, hn⟩
  | bool true, h => exact h
  | bool false, h => exact h

/-- What a literal is written as is read as the literal. -/
@[simp] theorem parse_text (l : Literal) : parse l.text = .ok l :=
  parse_eq_ok_iff.2 l.hasCanonicalText_text.hasText

theorem parse_eq_error_iff {s : String} {e : Error} :
    parse s = .error e ↔ e = .malformed (.notLiteral s) ∧ ∀ l : Literal, ¬ l.HasText s := by
  simp only [← parse_eq_ok_iff, parse]
  split <;> simp [eq_comm]

/-- Reading is the inverse of writing: what a literal is written as is read as the
    literal. Exactly the names of the truth values and the numerals from -2147483648 to
    2147483647 are read, as what they write, and any other text is malformed. -/
theorem literal_texts_decoded_exactly :
    (∀ l : Literal, parse l.text = .ok l) ∧
    (∀ s l, parse s = .ok l ↔ l.HasText s) ∧
    (∀ s, (∃ l, parse s = .ok l) ↔ s = "true" ∨ s = "false" ∨
      ∃ n : Numeral, s = n.text ∧ -2147483648 ≤ n.value ∧ n.value ≤ 2147483647) ∧
    ∀ s e, parse s = .error e ↔
      e = .malformed (.notLiteral s) ∧ ∀ l : Literal, ¬ l.HasText s := by
  refine ⟨parse_text, fun _ _ => parse_eq_ok_iff, fun s => ?_, fun _ _ => parse_eq_error_iff⟩
  simp only [parse_eq_ok_iff]
  constructor
  · rintro ⟨l, hl⟩
    match l with
    | bool true => exact .inl hl
    | bool false => exact .inr (.inl hl)
    | int v =>
      obtain ⟨n, hn, hv⟩ := hl
      exact .inr (.inr ⟨n, hn, Decimal.exists_toInt_eq_iff.1 ⟨v, hv.symm⟩⟩)
  · rintro (hs | hs | ⟨n, hn, hrange⟩)
    · exact ⟨bool true, hs⟩
    · exact ⟨bool false, hs⟩
    · obtain ⟨v, hv⟩ := Decimal.exists_toInt_eq_iff.2 hrange
      exact ⟨int v, n, hn, hv.symm⟩

example : parse "-002147483648" = .ok (int (-2147483648)) ∧
    parse "+2147483648" = .error (.malformed (.notLiteral "+2147483648")) := ⟨rfl, rfl⟩

end Literal

end Midend
