/-!
# Texts

A text is a string of bytes addressed by position. This file says what it means for a literal to occur
at a position, and `occursAt_iff` says it in terms of lists; `PatternVM.Text.Search` finds the first such
position.
-/

namespace PatternVM

/-- A string of bytes. -/
abbrev Text := Array UInt8

namespace Text

/-- The bytes of `lit` stand one after another in `text`, the first of them at position `i`. -/
def occursAt (text : Text) (i : Nat) : List UInt8 → Bool
  | [] => true
  | b :: rest => text[i]? == some b && text.occursAt (i + 1) rest

/-- The byte at position `i` exists and satisfies `p`. -/
def holdsAt (text : Text) (p : UInt8 → Bool) (i : Nat) : Bool :=
  text[i]?.any p

/-- A literal occurs at `i` when the text goes on with it there. -/
theorem occursAt_iff {text : Text} {lit : List UInt8} {i : Nat} :
    text.occursAt i lit ↔ lit <+: text.toList.drop i := by
  induction lit generalizing i with
  | nil => simp [occursAt]
  | cons b rest ih =>
    rw [occursAt, Bool.and_eq_true, beq_iff_eq, ih]
    rcases Nat.lt_or_ge i text.toList.length with lt | ge
    · rw [List.drop_eq_getElem_cons lt, List.cons_prefix_cons]
      simp only [Array.length_toList] at lt
      simp [lt, eq_comm (a := b)]
    · rw [List.drop_eq_nil_of_le ge]
      simp only [Array.length_toList] at ge
      simp [ge]

end Text

end PatternVM
