import Mathlib.Tactic.Common
import PatternVM.Listing.Bracketed
import PatternVM.Proofs.Listing.Delimited

/-!
# Escaped bytes

A byte is written in the same way between double quotes and between square brackets, except that other characters get
a backslash in front: the text of a byte begins with a backslash, or is one printable character that does not get one.
So texts of bytes can follow one another, with a stop behind them that gets a backslash where it is a byte.
-/

namespace PatternVM.Listing

variable {marked : List Char} {stop : Char} {a b : UInt8}

/-- The text of one byte where the characters in `marked` get a backslash in front. -/
def escapedByte (marked : List Char) (b : UInt8) : List Char :=
  if Char.ofNat b.toNat ∈ marked then ['\\', Char.ofNat b.toNat]
  else if isPrintable b then [Char.ofNat b.toNat] else octal b

/-- The characters that get a backslash between double quotes. -/
def quotedMarks : List Char := ['\\', '"']

/-- The characters that get a backslash between square brackets. -/
def bracketedMarks : List Char := ['\\', '"', ']', '-', '^']

/-- A byte between quotation marks is escaped with the marks that belong there. -/
lemma quotedByte_eq : quotedByte = escapedByte quotedMarks := by
  ext1 b
  simp [quotedByte, escapedByte, quotedMarks]

/-- A byte between brackets is escaped with the marks that belong there. -/
lemma bracketedByte_eq : bracketedByte = escapedByte bracketedMarks := by
  ext1 b
  simp only [bracketedByte, quotedByte, escapedByte, bracketedMarks, List.mem_cons, List.not_mem_nil, or_false]
  grind

/-! ## Characters of bytes -/

/-- A character made from a number below 256 has that number. -/
lemma toNat_ofNat_of_lt {n : Nat} (lt : n < 256) : (Char.ofNat n).toNat = n := by
  have valid : n.isValidChar := .inl (by omega)
  rw [Char.ofNat, dif_pos valid]
  rfl

/-- Bytes with the same character are the same. -/
lemma eq_of_ofNat_toNat_eq (same : Char.ofNat a.toNat = Char.ofNat b.toNat) : a = b := by
  rw [← UInt8.toNat_inj, ← toNat_ofNat_of_lt a.toNat_lt, same, toNat_ofNat_of_lt b.toNat_lt]

/-- The characters of octal digits follow one another from that of 0. -/
lemma toNat_octalDigit {n : Nat} : (octalDigit n).toNat = 48 + n % 8 :=
  toNat_ofNat_of_lt (by omega)

/-- Octal digits are digits. -/
lemma isDigit_octalDigit {n : Nat} : (octalDigit n).isDigit := by
  have digit : ∀ d < 8, (Char.ofNat (48 + d)).isDigit := by decide
  exact digit _ (Nat.mod_lt n (by omega))

/-- The three digits of a byte determine it. -/
lemma octal_injective (same : octal a = octal b) : a = b := by
  simp only [octal, List.cons.injEq, and_true, true_and] at same
  obtain ⟨high, middle, low⟩ := same
  have high := congrArg Char.toNat high
  have middle := congrArg Char.toNat middle
  have low := congrArg Char.toNat low
  simp only [toNat_octalDigit] at high middle low
  have := a.toNat_lt
  have := b.toNat_lt
  rw [← UInt8.toNat_inj]
  omega

/-! ## One byte after another -/

/-- Bytes are self-delimiting if backslashes get a backslash too and digits do not. -/
lemma selfDelimiting_escapedByte (backslash : '\\' ∈ marked) (digits : ∀ c ∈ marked, ¬ c.isDigit) :
    SelfDelimiting (escapedByte marked) := by
  intro a b rest rest' same
  unfold escapedByte at same
  -- The first two characters show that both texts are of the same kind: a backslash that stood for itself would be
  -- marked, and no digit gets a backslash.
  split_ifs at same with markedA markedB _ markedB _ _ markedB _
  · simp only [List.cons_append, List.nil_append, List.cons.injEq, true_and] at same
    exact ⟨eq_of_ofNat_toNat_eq same.1, same.2⟩
  · exact absurd (List.head_eq_of_cons_eq same ▸ backslash) markedB
  · have second := List.head_eq_of_cons_eq (List.tail_eq_of_cons_eq same)
    exact absurd isDigit_octalDigit (digits _ (second ▸ markedA))
  · exact absurd (List.head_eq_of_cons_eq same ▸ backslash) markedA
  · simp only [List.cons_append, List.nil_append, List.cons.injEq] at same
    exact ⟨eq_of_ofNat_toNat_eq same.1, same.2⟩
  · exact absurd (List.head_eq_of_cons_eq same ▸ backslash) markedA
  · have second := List.head_eq_of_cons_eq (List.tail_eq_of_cons_eq same)
    exact absurd isDigit_octalDigit (digits _ (second ▸ markedB))
  · exact absurd (List.head_eq_of_cons_eq same ▸ backslash) markedB
  · exact (List.append_inj same rfl).imp_left octal_injective

/-- No byte begins with a stop that gets a backslash, other than a backslash. -/
lemma escapedByte_append_ne (mem : stop ∈ marked) (ne : stop ≠ '\\') (rest rest' : List Char) :
    escapedByte marked b ++ rest ≠ stop :: rest' := by
  unfold escapedByte
  split_ifs with isMarked
  · simp [ne.symm]
  · rintro same
    cases same
    exact isMarked mem
  · simp [octal, ne.symm]

/-- The octal text of a byte is printable. -/
lemma printable_octal : Printable (octal b) := by
  have digit {n : Nat} : 32 ≤ (octalDigit n).toNat ∧ (octalDigit n).toNat ≤ 126 := by
    rw [toNat_octalDigit]
    omega
  simp only [octal, printable_cons, digit, printable_nil]
  decide

/-- An escaped byte is printable if the marked characters are. -/
lemma printable_escapedByte (printable : Printable marked) : Printable (escapedByte marked b) := by
  unfold escapedByte
  split_ifs with isMarked isPrintable
  · exact printable_cons.2 ⟨by decide, printable_cons.2 ⟨printable _ isMarked, printable_nil⟩⟩
  · rw [printable_cons, toNat_ofNat_of_lt b.toNat_lt]
    simp only [Listing.isPrintable, Bool.and_eq_true, decide_eq_true_eq, UInt8.le_iff_toNat_le] at isPrintable
    exact ⟨isPrintable, printable_nil⟩
  · exact printable_octal

/-! ## Quoted bytes -/

/-- Between its quotes, a string of bytes shows where it ends. -/
theorem selfDelimiting_quoted : SelfDelimiting quoted := by
  have single : SelfDelimiting quotedByte := by
    rw [quotedByte_eq]
    exact selfDelimiting_escapedByte (by decide) (by simp [quotedMarks])
  have apart (b : UInt8) (rest rest' : List Char) : quotedByte b ++ rest ≠ '"' :: rest' := by
    rw [quotedByte_eq]
    exact escapedByte_append_ne (by decide) (by decide) rest rest'
  exact single.list apart '"'

/-- A string of bytes in quotes is printable, whatever the bytes. -/
theorem printable_quoted {bytes : List UInt8} : Printable (quoted bytes) := by
  have single (b : UInt8) : Printable (quotedByte b) := by
    rw [quotedByte_eq]
    exact printable_escapedByte (by decide)
  simp only [quoted, printable_cons, printable_append, printable_flatMap]
  exact ⟨by decide, fun b _ => single b, by decide⟩

end PatternVM.Listing
