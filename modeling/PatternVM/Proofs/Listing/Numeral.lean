import Mathlib.Tactic.Common
import PatternVM.Listing.Numeral
import PatternVM.Proofs.Listing.Delimited

/-!
# Numerals in listings

A numeral determines its number, and ends where no digit follows.
-/

namespace PatternVM.Listing

/-- No digit stands at the beginning, so that a numeral in front ends there. -/
def EndsNumeral (rest : List Char) : Prop := ∀ c ∈ rest.head?, ¬ c.isDigit

variable {m n : Nat} {y z : Int} {c : Char} {rest rest' : List Char}

/-- A numeral ends where the text ends. -/
lemma endsNumeral_nil : EndsNumeral [] := nofun

/-- A numeral ends in front of a character that is not a digit. -/
lemma endsNumeral_cons (other : ¬ c.isDigit) : EndsNumeral (c :: rest) := by
  rintro _ ⟨⟩
  exact other

/-- All characters of a numeral are digits. -/
lemma isDigit_of_mem_decimal (mem : c ∈ decimal n) : c.isDigit :=
  Nat.isDigit_of_mem_toDigits (by omega) (by omega) mem

/-- Different numbers have different numerals. -/
lemma decimal_injective (same : decimal m = decimal n) : m = n := by
  rw [← Nat.ofDigitChars_ten_toDigits (n := m), ← Nat.ofDigitChars_ten_toDigits (n := n)]
  exact congrArg (Nat.ofDigitChars 10 · 0) same

/-- A numeral and what is behind it can be told apart if that does not begin with a digit. -/
lemma decimal_append_inj (after : EndsNumeral rest) (after' : EndsNumeral rest')
    (same : decimal m ++ rest = decimal n ++ rest') : m = n ∧ rest = rest' :=
  (cut (fun _ => isDigit_of_mem_decimal) (fun _ => isDigit_of_mem_decimal) after after' same).imp_left decimal_injective

/-- The same holds of the number in a numeral with a sign. -/
lemma signed_append_inj (after : EndsNumeral rest) (after' : EndsNumeral rest')
    (same : signed y ++ rest = signed z ++ rest') : y = z := by
  simp only [signed, List.cons_append, List.cons.injEq] at same
  obtain ⟨sign, digits⟩ := same
  obtain ⟨size, -⟩ := decimal_append_inj after after' digits
  split_ifs at sign <;> first | contradiction | omega

/-! ## Padding -/

/-- A numeral aligned to the right consists of spaces and digits. -/
lemma mem_rightAligned (mem : c ∈ rightAligned n) : c = ' ' ∨ c.isDigit := by
  rw [rightAligned, List.leftpad, List.mem_append, List.mem_replicate] at mem
  exact mem.imp And.right isDigit_of_mem_decimal

/-- The digits of a padded numeral are those of the number. -/
lemma filter_rightAligned : (rightAligned n).filter Char.isDigit = decimal n := by
  have digits : (decimal n).filter Char.isDigit = decimal n :=
    List.filter_eq_self.2 fun _ => isDigit_of_mem_decimal
  rw [rightAligned, List.leftpad, List.filter_append, digits]
  simp

/-- Different numbers have different numerals, also if these are aligned to the right. -/
lemma rightAligned_injective (same : rightAligned m = rightAligned n) : m = n := by
  apply decimal_injective
  rw [← filter_rightAligned, same, filter_rightAligned]

/-- A numeral aligned to the right takes four columns at least. -/
lemma four_le_length_rightAligned : 4 ≤ (rightAligned n).length := by
  rw [rightAligned, List.length_leftpad]
  exact Nat.le_max_left _ _

/-! ## Printable numerals -/

/-- Digits are printable. -/
lemma printable_of_isDigit (digit : c.isDigit) : 32 ≤ c.toNat ∧ c.toNat ≤ 126 := by
  obtain ⟨low, high⟩ := Char.isDigit_iff_toNat.1 digit
  exact ⟨Nat.le_trans (by decide) low, Nat.le_trans high (by decide)⟩

/-- Numerals are printable. -/
lemma printable_decimal : Printable (decimal n) :=
  fun _ mem => printable_of_isDigit (isDigit_of_mem_decimal mem)

/-- Numerals aligned to the right are printable. -/
lemma printable_rightAligned : Printable (rightAligned n) := by
  intro c mem
  rcases mem_rightAligned mem with rfl | digit
  · decide
  · exact printable_of_isDigit digit

/-- Numerals with a sign are printable. -/
lemma printable_signed : Printable (signed z) := by
  unfold signed
  split
  · exact printable_cons.2 ⟨by decide, printable_decimal⟩
  · exact printable_cons.2 ⟨by decide, printable_decimal⟩

/-- Numerals of integers are printable. -/
lemma printable_integer : Printable (integer z) := by
  unfold integer
  split
  · exact printable_cons.2 ⟨by decide, printable_decimal⟩
  · exact printable_decimal

end PatternVM.Listing
