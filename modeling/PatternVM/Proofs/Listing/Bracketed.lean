import Mathlib.Tactic.Common
import PatternVM.Proofs.ByteSet.Ranges
import PatternVM.Proofs.Listing.Quoted

/-!
# Bracketed byte sets

What stands between square brackets is a list of bytes, some with a dash in front (`Bound`). It can be read in one way
only, and the bytes that it names are the members of the set.
-/

namespace PatternVM.Listing

/-- A byte as it stands between square brackets: the first or the last one of a range, or alone. -/
structure Bound where
  /-- There is a dash in front of the byte. -/
  dashed : Bool
  byte : UInt8

/-- The text of a byte and the dash in front of it. -/
def Bound.text (x : Bound) : List Char :=
  if x.dashed then '-' :: bracketedByte x.byte else bracketedByte x.byte

/-- The bytes that are written down for a range. -/
def bounds (r : ByteRange) : List Bound :=
  if r.lo = r.hi then [⟨false, r.lo⟩]
  else if r.lo.toNat + 1 = r.hi.toNat then [⟨false, r.lo⟩, ⟨false, r.hi⟩]
  else [⟨false, r.lo⟩, ⟨true, r.hi⟩]

/-- The bounds name byte `c`, where `before` is the byte that is written in front of them. -/
def Names (c before : UInt8) : List Bound → Prop
  | [] => False
  | x :: rest => c = x.byte ∨ (x.dashed ∧ before ≤ c ∧ c ≤ x.byte) ∨ Names c x.byte rest

variable {s t : ByteSet} {r : ByteRange} {ranges : List ByteRange} {rest : List Bound} {before c : UInt8}

/-! ## What the bounds name -/

/-- The bounds of a range name the bytes of the range, and what stands behind them goes on from its last byte. -/
lemma names_bounds_append (ordered : r.lo ≤ r.hi) :
    Names c before (bounds r ++ rest) ↔ r.Covers c ∨ Names c r.hi rest := by
  simp only [bounds, ByteRange.Covers, UInt8.le_iff_toNat_le, ← UInt8.toNat_inj] at ordered ⊢
  split_ifs with single pair
  · have covers : r.lo.toNat ≤ c.toNat ∧ c.toNat ≤ r.hi.toNat ↔ c = r.hi := by
      rw [← UInt8.toNat_inj]
      omega
    rw [covers, UInt8.toNat_inj.1 single]
    simp [Names]
  · have covers : r.lo.toNat ≤ c.toNat ∧ c.toNat ≤ r.hi.toNat ↔ c = r.lo ∨ c = r.hi := by
      rw [← UInt8.toNat_inj, ← UInt8.toNat_inj]
      omega
    rw [covers]
    simp [Names, or_assoc]
  · have covers : r.lo.toNat ≤ c.toNat ∧ c.toNat ≤ r.hi.toNat ↔ c = r.lo ∨ c = r.hi ∨ r.lo ≤ c ∧ c ≤ r.hi := by
      rw [← UInt8.toNat_inj, ← UInt8.toNat_inj, UInt8.le_iff_toNat_le, UInt8.le_iff_toNat_le]
      omega
    rw [covers]
    simp [Names, or_assoc]

/-- The bounds of some ranges name the bytes that one of the ranges covers. -/
lemma names_flatMap_bounds (ordered : ∀ r ∈ ranges, r.lo ≤ r.hi) :
    Names c before (ranges.flatMap bounds) ↔ ∃ r ∈ ranges, r.Covers c := by
  induction ranges generalizing before with
  | nil => simp [Names]
  | cons r ranges ih =>
    obtain ⟨head, tail⟩ := List.forall_mem_cons.1 ordered
    rw [List.flatMap_cons, names_bounds_append head, ih tail]
    simp only [List.mem_cons, or_and_right, exists_or, exists_eq_left]

/-- The members of a set are the bytes that its bounds name. -/
lemma contains_iff_names : s.contains c ↔ Names c 0 (s.ranges.flatMap bounds) := by
  rw [ByteSet.contains_iff_covers, names_flatMap_bounds]
  exact fun _ => ByteRange.ordered_of_mem_collapse

/-- Sets with the same bounds are equal. -/
lemma eq_of_bounds_eq (same : s.ranges.flatMap bounds = t.ranges.flatMap bounds) : s = t := by
  apply ByteSet.ext_contains
  intro b
  rw [Bool.eq_iff_iff, contains_iff_names, same, contains_iff_names]

/-! ## How the bounds are read -/

/-- The text of a range is that of its bounds. -/
lemma bracketedRange_eq : bracketedRange r = (bounds r).flatMap Bound.text := by
  unfold bracketedRange bounds
  split_ifs <;> simp [Bound.text]

/-- The text of a set is that of the bounds of its ranges, between brackets. -/
lemma bracketed_eq : bracketed s = '[' :: ((s.ranges.flatMap bounds).flatMap Bound.text ++ [']']) := by
  simp only [bracketed, List.flatMap_assoc, ← bracketedRange_eq]

/-- The text of a byte between brackets tells where it ends. -/
lemma selfDelimiting_bracketedByte : SelfDelimiting bracketedByte := by
  rw [bracketedByte_eq]
  exact selfDelimiting_escapedByte (by decide) (by simp [bracketedMarks])

/-- The text of a byte between brackets begins neither with a closing bracket nor with a dash. -/
lemma bracketedByte_append_ne {b : UInt8} {stop : Char} {rest rest' : List Char} (isStop : stop = ']' ∨ stop = '-') :
    bracketedByte b ++ rest ≠ stop :: rest' := by
  rw [bracketedByte_eq]
  rcases isStop with rfl | rfl
  · exact escapedByte_append_ne (by decide) (by decide) _ _
  · exact escapedByte_append_ne (by decide) (by decide) _ _

/-- A dash that stands for itself is not the beginning of a byte, so it shows that the next byte is dashed. -/
lemma selfDelimiting_bound : SelfDelimiting Bound.text := by
  rintro ⟨dashed, b⟩ ⟨dashed', b'⟩ rest rest' same
  cases dashed <;> cases dashed' <;> simp only [Bound.text, if_true, Bool.false_eq_true, if_false] at same
  · obtain ⟨rfl, rfl⟩ := selfDelimiting_bracketedByte same
    exact ⟨rfl, rfl⟩
  · exact absurd same (bracketedByte_append_ne (.inr rfl))
  · exact absurd same.symm (bracketedByte_append_ne (.inr rfl))
  · obtain ⟨rfl, rfl⟩ := selfDelimiting_bracketedByte (List.tail_eq_of_cons_eq same)
    exact ⟨rfl, rfl⟩

/-- The text of a bound does not begin with a closing bracket. -/
lemma bound_append_ne (x : Bound) (rest rest' : List Char) : x.text ++ rest ≠ ']' :: rest' := by
  unfold Bound.text
  split
  · simp
  · exact bracketedByte_append_ne (.inl rfl)

/-- Between its brackets, a set shows where it ends. -/
theorem selfDelimiting_bracketed : SelfDelimiting bracketed := by
  intro s t rest rest' same
  rw [bracketed_eq, bracketed_eq] at same
  exact (selfDelimiting_bound.list bound_append_ne '[' same).imp_left eq_of_bounds_eq

/-- A set in brackets is printable, whatever its members. -/
theorem printable_bracketed : Printable (bracketed s) := by
  have single (b : UInt8) : Printable (bracketedByte b) := by
    rw [bracketedByte_eq]
    exact printable_escapedByte (by decide)
  have bound (x : Bound) : Printable x.text := by
    unfold Bound.text
    split
    · exact printable_cons.2 ⟨by decide, single _⟩
    · exact single _
  simp only [bracketed_eq, printable_cons, printable_append, printable_flatMap]
  exact ⟨by decide, fun x _ => bound x, by decide⟩

/-! ## Both kinds of text -/

/-- A string of bytes in quotes and a set in brackets show where they end and what they stand for, whatever text comes
behind them, and all their characters are printable. -/
theorem quote_and_text_delimited :
    (∀ (a b : List UInt8) (u v : String), quote a ++ u = quote b ++ v ↔ a = b ∧ u = v) ∧
    (∀ (s t : ByteSet) (u v : String), s.text ++ u = t.text ++ v ↔ s = t ∧ u = v) ∧
    (∀ a : List UInt8, Printable (quote a).toList) ∧
    ∀ s : ByteSet, Printable s.text.toList := by
  refine ⟨fun a b u v => ?_, fun s t u v => ?_, fun a => ?_, fun s => ?_⟩
  · exact selfDelimiting_quoted.ofList_append_inj
  · exact selfDelimiting_bracketed.ofList_append_inj
  · rw [quote, String.toList_ofList]
    exact printable_quoted
  · rw [ByteSet.text, String.toList_ofList]
    exact printable_bracketed

/-- A digit behind an octal number is a byte of its own, and a stop inside the text is none. -/
example : quote [10, 49, 34] = "\"\\0121\\\"\"" ∧ (ByteSet.ofList [45, 93, 94]).text = "[\\-\\]\\^]" := by
  decide +kernel

end PatternVM.Listing
