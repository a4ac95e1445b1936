/-!
# Numerals in listings

Decimal numerals, with or without a sign, and the padding that lines them up.
-/

namespace PatternVM.Listing

/-- The decimal digits of `n`. -/
def decimal (n : Nat) : List Char := Nat.toDigits 10 n

/-- A number in decimal, with a sign only if it is negative. -/
def integer (z : Int) : List Char :=
  if z < 0 then '-' :: decimal z.natAbs else decimal z.natAbs

/-- A number in decimal, with a sign in any case. -/
def signed (z : Int) : List Char :=
  (if z < 0 then '-' else '+') :: decimal z.natAbs

/-- A number in decimal, moved to the right end of a field of four characters. -/
def rightAligned (n : Nat) : List Char := (decimal n).leftpad 4 ' '

/-- A number in decimal, at the left end of a field of four characters. -/
def leftAligned (n : Nat) : List Char := (decimal n).rightpad 4 ' '

end PatternVM.Listing
