import PatternVM.ByteSet.Ranges
import PatternVM.Listing.Quoted

/-!
# Bracketed byte sets

A set of bytes as the list of its ranges between square brackets. A range of one byte is that byte, one of
two bytes is both of them, and a longer one is its ends with a dash between them.
-/

namespace PatternVM.Listing

/-- The text of one byte inside square brackets, where a closing bracket, a dash and a caret get a
backslash too. -/
def bracketedByte (b : UInt8) : List Char :=
  let c := Char.ofNat b.toNat
  if c = ']' ∨ c = '-' ∨ c = '^' then ['\\', c] else quotedByte b

/-- The text of one range. -/
def bracketedRange (r : ByteRange) : List Char :=
  if r.lo = r.hi then
    bracketedByte r.lo
  else if r.lo.toNat + 1 = r.hi.toNat then
    bracketedByte r.lo ++ bracketedByte r.hi
  else
    bracketedByte r.lo ++ '-' :: bracketedByte r.hi

/-- The text of a set, brackets included. -/
def bracketed (s : ByteSet) : List Char :=
  '[' :: (s.ranges.flatMap bracketedRange ++ [']'])

end PatternVM.Listing

namespace PatternVM.ByteSet

/-- The text of a set, brackets included. -/
def text (s : ByteSet) : String := String.ofList (Listing.bracketed s)

/-- The text of a set, marked as one. -/
def debugText (s : ByteSet) : String := "ByteClass(" ++ s.text ++ ")"

end PatternVM.ByteSet
