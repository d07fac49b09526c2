/-!
# Signed decimal text

Integers are written in decimal without leading zeros, a negative one with a
minus sign. Reading is more liberal: one sign of either kind may stand in
front, and leading zeros are allowed, but there must be at least one digit and
nothing else. What is read must also fit the word it is meant for.
-/

namespace Midend.Decimal

/-- The decimal text of an integer. -/
def text (n : Int) : String := n.repr

/-- The number written by a nonempty list of decimal digits. -/
def digits? (ds : List Char) : Option Nat :=
  if ds ≠ [] ∧ ds.all Char.isDigit then some (Nat.ofDigitChars 10 ds 0) else none

/-- The integer written by a list of characters: an optional sign, then digits. -/
def readChars? : List Char → Option Int
  | '-' :: ds => (digits? ds).map fun n : Nat => -(n : Int)
  | '+' :: ds => (digits? ds).map Int.ofNat
  | ds => (digits? ds).map Int.ofNat

/-- The integer that a text writes, if it writes one. -/
def read? (s : String) : Option Int := readChars? s.toList

theorem digits?_cons_eq_none {c : Char} {ds : List Char} (hc : ¬ c.isDigit) :
    digits? (c :: ds) = none := by
  simp [digits?, hc]

/-- The digits of a number write it. -/
theorem digits?_toDigits (n : Nat) : digits? (Nat.toDigits 10 n) = some n := by
  have hne : Nat.toDigits 10 n ≠ [] := Nat.toDigits_ne_nil
  have hall : (Nat.toDigits 10 n).all Char.isDigit :=
    List.all_eq_true.2 fun c hc => Nat.isDigit_of_mem_toDigits (by decide) (by decide) hc
  rw [digits?, if_pos ⟨hne, hall⟩, Nat.ofDigitChars_ten_toDigits]

/-- Digits without a sign are read as they are. -/
theorem readChars?_eq_of_digits? {ds : List Char} {n : Nat} (h : digits? ds = some n) :
    readChars? ds = some (n : Int) := by
  match ds with
  | [] => simp [digits?] at h
  | c :: ds =>
    by_cases hc : c.isDigit
    · unfold readChars?
      split <;> simp_all
    · rw [digits?_cons_eq_none hc] at h
      cases h

/-- Reading what was written gives back the number. -/
theorem read?_text (n : Int) : read? (text n) = some n := by
  rw [text, Int.repr_eq_if, read?]
  split
  next h =>
    rw [Nat.repr_eq_ofList_toDigits, String.toList_ofList,
      readChars?_eq_of_digits? (digits?_toDigits _), Int.toNat_of_nonneg h]
  next h =>
    have hn : ((-n).toNat : Int) = -n := Int.toNat_of_nonneg (by omega)
    rw [Nat.repr_eq_ofList_toDigits, String.toList_append, String.toList_ofList,
      String.toList_ofList, List.singleton_append, readChars?, digits?_toDigits,
      Option.map_some, hn, Int.neg_neg]

/-- The signed 32-bit integer that a text writes, if it writes one in range. -/
def readInt32? (s : String) : Option Int32 :=
  (read? s).bind fun n =>
    if Int32.minValue.toInt ≤ n ∧ n ≤ Int32.maxValue.toInt then some (Int32.ofInt n) else none

/-- The signed 64-bit integer that a text writes, if it writes one in range. -/
def readInt64? (s : String) : Option Int :=
  (read? s).bind fun n =>
    if Int64.minValue.toInt ≤ n ∧ n ≤ Int64.maxValue.toInt then some n else none

end Midend.Decimal
