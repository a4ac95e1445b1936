/-!
# Quoted bytes

Bytes as printable text. A backslash and a double quote get a backslash in front, other printable ASCII
characters stand for themselves, and any other byte is a backslash with three octal digits.
-/

namespace PatternVM.Listing

/-- The character of a digit below 8. -/
def octalDigit (n : Nat) : Char := Char.ofNat (48 + n % 8)

/-- A byte as a backslash and three octal digits. -/
def octal (b : UInt8) : List Char :=
  ['\\', octalDigit (b.toNat / 64), octalDigit (b.toNat / 8), octalDigit b.toNat]

/-- Whether a byte is the code of a printable ASCII character. -/
def isPrintable (b : UInt8) : Bool := 32 ≤ b && b ≤ 126

/-- The text of one byte inside double quotes. -/
def quotedByte (b : UInt8) : List Char :=
  let c := Char.ofNat b.toNat
  if c = '\\' ∨ c = '"' then ['\\', c] else if isPrintable b then [c] else octal b

/-- The text of a string of bytes, double quotes included. -/
def quoted (bytes : List UInt8) : List Char :=
  '"' :: (bytes.flatMap quotedByte ++ ['"'])

/-- The text of a string of bytes, double quotes included. -/
def quote (bytes : List UInt8) : String := String.ofList (quoted bytes)

end PatternVM.Listing
