import PatternVM.Text.Basic

/-!
# Searching a text

`firstByte?` finds the first byte with a property in a stretch of a text, and `find?` the first occurrence
of a literal. The search for a literal looks for its first byte only, compares the rest of the literal
behind each candidate, and goes on one position past a candidate that fails, so that occurrences which
overlap a failed candidate are not lost.
-/

namespace PatternVM.Text

/-- The first position from `i` on and before `stop` whose byte satisfies `p`. -/
def firstByte? (text : Text) (p : UInt8 → Bool) (i stop : Nat) : Option Nat :=
  if i < stop then
    if text.holdsAt p i then some i else text.firstByte? p (i + 1) stop
  else
    none
termination_by stop - i

/-- What `firstByte?` finds lies in the stretch it searches. -/
theorem firstByte?_bounds {text : Text} {p : UInt8 → Bool} {i stop q : Nat}
    (h : text.firstByte? p i stop = some q) : i ≤ q ∧ q < stop := by
  fun_induction firstByte? text p i stop with
  | case1 i lt _ =>
    cases h
    exact ⟨Nat.le_refl _, lt⟩
  | case2 i _ _ ih => exact ⟨Nat.le_of_succ_le (ih h).1, (ih h).2⟩
  | case3 => cases h

/-- What `firstByte?` finds has the property. -/
theorem holdsAt_firstByte? {text : Text} {p : UInt8 → Bool} {i stop q : Nat}
    (h : text.firstByte? p i stop = some q) : text.holdsAt p q := by
  fun_induction firstByte? text p i stop with
  | case1 i _ holds =>
    cases h
    exact holds
  | case2 i _ _ ih => exact ih h
  | case3 => cases h

/-- No position in front of what `firstByte?` finds has the property. -/
theorem not_holdsAt_of_lt_firstByte? {text : Text} {p : UInt8 → Bool} {i stop q j : Nat}
    (h : text.firstByte? p i stop = some q) (le : i ≤ j) (lt : j < q) : ¬ text.holdsAt p j := by
  fun_induction firstByte? text p i stop with
  | case1 i _ _ =>
    cases h
    exact absurd lt (Nat.not_lt.mpr le)
  | case2 i _ fails ih =>
    rcases Nat.eq_or_lt_of_le le with rfl | lt'
    · exact fails
    · exact ih h lt'
  | case3 => cases h

/-- If `firstByte?` finds nothing, no position of the stretch has the property. -/
theorem not_holdsAt_of_firstByte?_eq_none {text : Text} {p : UInt8 → Bool} {i stop j : Nat}
    (h : text.firstByte? p i stop = none) (le : i ≤ j) (lt : j < stop) : ¬ text.holdsAt p j := by
  fun_induction firstByte? text p i stop with
  | case1 => cases h
  | case2 i _ fails ih =>
    rcases Nat.eq_or_lt_of_le le with rfl | lt'
    · exact fails
    · exact ih h lt'
  | case3 i done => exact absurd (Nat.lt_of_le_of_lt le lt) done

/-- The first position from `i` on and before `stop` where `first` stands and `rest` follows it. -/
def findWithin? (text : Text) (first : UInt8) (rest : List UInt8) (i stop : Nat) : Option Nat :=
  match h : text.firstByte? (· == first) i stop with
  | none => none
  | some q =>
    if text.occursAt (q + 1) rest then some q else text.findWithin? first rest (q + 1) stop
termination_by stop - i
decreasing_by
  have := firstByte?_bounds h
  omega

/-- The first position from `start` on where `lit` occurs. The empty literal is never found, and only
positions that leave room for all of `lit` are looked at. -/
def find? (text : Text) (lit : List UInt8) (start : Nat) : Option Nat :=
  match lit with
  | [] => none
  | first :: rest => text.findWithin? first rest start (text.size - rest.length)

end PatternVM.Text
