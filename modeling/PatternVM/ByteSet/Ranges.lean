import PatternVM.ByteSet.Basic

/-!
# Ranges of bytes

The members of a `ByteSet`, collapsed into ranges: ascending, and never two that touch.
-/

namespace PatternVM

/-- The bytes from `lo` to `hi`, both included. -/
structure ByteRange where
  lo : UInt8
  hi : UInt8
  deriving DecidableEq

namespace ByteRange

/-- Collapses ascending bytes into ranges. A byte widens the range to its right if it stands directly
below it, and opens a range of its own otherwise. -/
def collapse : List UInt8 → List ByteRange
  | [] => []
  | b :: rest =>
    match collapse rest with
    | [] => [⟨b, b⟩]
    | r :: ranges =>
      if b.toNat + 1 = r.lo.toNat then ⟨b, r.hi⟩ :: ranges else ⟨b, b⟩ :: r :: ranges

end ByteRange

/-- The members as ranges, in ascending order. -/
def ByteSet.ranges (s : ByteSet) : List ByteRange := ByteRange.collapse s.toList

end PatternVM
