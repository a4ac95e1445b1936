import PatternVM.ByteSet.Basic
import PatternVM.Text.Search

/-!
# Tokens

What a consuming instruction looks for in a text. All tokens are matched by the same rule, which only asks
for their width, whether they occur at a position, and where they occur first.
-/

namespace PatternVM

/-- What a consuming instruction looks for. -/
inductive Token
  /-- The given bytes, one after another. -/
  | literal (bytes : List UInt8)
  /-- One byte out of a set. -/
  | oneOf (set : ByteSet)
  /-- One byte. -/
  | anyByte

namespace Token

/-- The number of bytes that a token takes up. -/
def width : Token → Nat
  | literal bytes => bytes.length
  | oneOf _ | anyByte => 1

/-- Whether a token stands at position `i`. -/
def occursAt (text : Text) (i : Nat) : Token → Bool
  | literal bytes => text.occursAt i bytes
  | oneOf set => text.holdsAt set.contains i
  | anyByte => i < text.size

/-- The first position from `start` on where a token stands. The empty literal is never found. -/
def find? (text : Text) (start : Nat) : Token → Option Nat
  | literal bytes => text.find? bytes start
  | oneOf set => text.firstByte? set.contains start text.size
  | anyByte => if start < text.size then some start else none

end Token

end PatternVM
