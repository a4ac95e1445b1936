import Mathlib.Tactic.Common
import PatternVM.Machine.Token

/-!
# First occurrences

The searches of a text find the first position with a property: none is passed over, and a search that
finds nothing has missed nothing. This holds for the bytes of a literal and for tokens in general, apart
from the empty literal, which no search finds.
-/

namespace PatternVM

/-- Among the positions from `start` on, `q` is the first with property `P`. -/
structure FirstFrom (P : Nat → Prop) (start q : Nat) : Prop where
  le : start ≤ q
  holds : P q
  least : ∀ j, start ≤ j → j < q → ¬ P j

namespace Text

variable {text : Text} {first : UInt8} {rest lit : List UInt8} {i stop start q : Nat}

/-- Where a literal occurs there is room for all of it. -/
lemma add_length_le_of_occursAt (h : text.occursAt i lit) (ne : lit ≠ []) : i + lit.length ≤ text.size := by
  have len := (occursAt_iff.mp h).length_le
  have pos := List.length_pos_iff.mpr ne
  rw [List.length_drop] at len
  simp only [Array.length_toList] at len
  omega

/-- A literal occurs where its first byte does and the others occur behind that. -/
lemma occursAt_cons : text.occursAt i (first :: rest) ↔
    text.holdsAt (· == first) i ∧ text.occursAt (i + 1) rest := by
  rw [occursAt, holdsAt, Bool.and_eq_true]
  cases text[i]? with
  | none => simp
  | some b => simp

/-- What `findWithin?` finds is the first occurrence in the stretch it searches. -/
lemma findWithin?_eq_some (h : text.findWithin? first rest i stop = some q) :
    FirstFrom (text.occursAt · (first :: rest)) i q := by
  fun_induction findWithin? text first rest i stop with
  | case1 => cases h
  | case2 i q' found occurs =>
    cases h
    refine ⟨(firstByte?_bounds found).1, occursAt_cons.mpr ⟨holdsAt_firstByte? found, occurs⟩, ?_⟩
    intro j le lt occurs'
    exact not_holdsAt_of_lt_firstByte? found le lt (occursAt_cons.mp occurs').1
  | case3 i q' found fails ih =>
    obtain ⟨le, occurs, least⟩ := ih h
    have le' := (firstByte?_bounds found).1
    refine ⟨by omega, occurs, fun j lej lt occurs' => ?_⟩
    obtain ⟨byte, others⟩ := occursAt_cons.mp occurs'
    -- before the candidate the first byte is missing, at the candidate the others are
    rcases Nat.lt_trichotomy j q' with before | rfl | behind
    · exact not_holdsAt_of_lt_firstByte? found lej before byte
    · exact fails others
    · exact least j behind lt occurs'

/-- If `findWithin?` finds nothing, the literal does not occur in the stretch. -/
lemma findWithin?_eq_none {j : Nat} (h : text.findWithin? first rest i stop = none) (le : i ≤ j)
    (lt : j < stop) : ¬ text.occursAt j (first :: rest) := by
  fun_induction findWithin? text first rest i stop with
  | case1 i found =>
    intro occurs
    exact not_holdsAt_of_firstByte?_eq_none found le lt (occursAt_cons.mp occurs).1
  | case2 => cases h
  | case3 i q' found fails ih =>
    intro occurs
    obtain ⟨byte, others⟩ := occursAt_cons.mp occurs
    rcases Nat.lt_trichotomy j q' with before | rfl | behind
    · exact not_holdsAt_of_lt_firstByte? found le before byte
    · exact fails others
    · exact ih h behind occurs

/-- What `find?` finds is the first occurrence of a literal that is not empty. -/
lemma find?_eq_some (h : text.find? lit start = some q) :
    lit ≠ [] ∧ FirstFrom (text.occursAt · lit) start q := by
  cases lit with
  | nil => cases h
  | cons first rest => exact ⟨List.cons_ne_nil first rest, findWithin?_eq_some h⟩

/-- A literal that is not found from a start on occurs nowhere from there on. -/
lemma find?_eq_none {j : Nat} (h : text.find? lit start = none) (ne : lit ≠ []) (le : start ≤ j) :
    ¬ text.occursAt j lit := by
  cases lit with
  | nil => exact absurd rfl ne
  | cons first rest =>
    intro occurs
    have room := add_length_le_of_occursAt occurs ne
    rw [List.length_cons] at room
    exact findWithin?_eq_none h le (by omega) occurs

/-- A search finds something exactly if the literal is not empty and occurs somewhere from the start on. -/
lemma isSome_find?_iff : (text.find? lit start).isSome ↔ lit ≠ [] ∧ ∃ i, start ≤ i ∧ text.occursAt i lit := by
  cases found : text.find? lit start with
  | some q =>
    obtain ⟨ne, first⟩ := find?_eq_some found
    exact iff_of_true rfl ⟨ne, q, first.le, first.holds⟩
  | none =>
    refine iff_of_false nofun ?_
    rintro ⟨ne, i, le, occurs⟩
    exact find?_eq_none found ne le occurs

end Text

namespace Token

variable {token : Token} {text : Text} {i start q : Nat}

/-- Where a token stands there is room for all of it. -/
lemma add_width_le (h : token.occursAt text i) (pos : 0 < token.width) : i + token.width ≤ text.size := by
  cases token with
  | literal bytes => exact Text.add_length_le_of_occursAt h (List.ne_nil_of_length_pos pos)
  | oneOf set =>
    rw [occursAt, Text.holdsAt, Option.any_eq_true] at h
    obtain ⟨b, at_i, _⟩ := h
    exact (Array.getElem?_eq_some_iff.mp at_i).1
  | anyByte => exact of_decide_eq_true h

/-- What a search for a token finds is its first occurrence, and the token is not empty. -/
lemma find?_eq_some (h : token.find? text start = some q) :
    0 < token.width ∧ FirstFrom (token.occursAt text ·) start q := by
  cases token with
  | literal bytes =>
    obtain ⟨ne, first⟩ := Text.find?_eq_some h
    exact ⟨List.length_pos_iff.mpr ne, first⟩
  | oneOf set =>
    refine ⟨Nat.one_pos, (Text.firstByte?_bounds h).1, Text.holdsAt_firstByte? h, ?_⟩
    intro j le lt
    exact Text.not_holdsAt_of_lt_firstByte? h le lt
  | anyByte =>
    rw [find?] at h
    split at h
    · rename_i lt
      cases h
      exact ⟨Nat.one_pos, Nat.le_refl _, decide_eq_true lt, fun j le lt => absurd lt (Nat.not_lt.mpr le)⟩
    · cases h

/-- A token that is not found from a start on occurs nowhere from there on. -/
lemma find?_eq_none (h : token.find? text start = none) (pos : 0 < token.width) (le : start ≤ i) :
    ¬ token.occursAt text i := by
  intro occurs
  have room := add_width_le occurs pos
  cases token with
  | literal bytes => exact Text.find?_eq_none h (List.ne_nil_of_length_pos pos) le occurs
  | oneOf set => exact Text.not_holdsAt_of_firstByte?_eq_none h le room occurs
  | anyByte =>
    rw [find?] at h
    split at h
    · cases h
    · rename_i done
      exact done (Nat.lt_of_le_of_lt le room)

end Token

end PatternVM
