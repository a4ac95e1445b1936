/-!
# Instructions

The instructions of a compiled pattern. The first four carry a flag `atEnd`: a flagged instruction has to
finish exactly at the end of the text. Offsets of jumps count from the instruction's own index.
-/

namespace PatternVM

/-- One instruction of a program. -/
inductive Instr
  /-- The given bytes, one after another. -/
  | literal (bytes : List UInt8) (atEnd : Bool)
  /-- One byte out of the program's class number `id`. Numbers of classes take 32 bits; a program has fewer than
  `2 ^ 32` classes. -/
  | byteClass (id : Nat) (atEnd : Bool)
  /-- One byte, whichever it is. -/
  | anyByte (atEnd : Bool)
  /-- The start of the text, which has to be empty if `atEnd` is set. -/
  | textStart (atEnd : Bool)
  /-- The end of the text. -/
  | textEnd
  /-- The next match may begin at any later position. -/
  | unanchor
  /-- Goes on at the target. -/
  | jump (offset : Int32)
  /-- Saves the cursor for a later `jumpIfAdvanced`. -/
  | savePos
  /-- Goes on at the next instruction, with the target as the alternative. -/
  | branchFirst (offset : Int32)
  /-- Takes the newest saved position off: acts as `jumpFirst` if the cursor has left it, and goes on at
  the next instruction otherwise. -/
  | jumpIfAdvanced (offset : Int32)
  /-- Goes on at the target, with the next instruction as the alternative. -/
  | jumpFirst (offset : Int32)
  /-- The text matches. -/
  | accept
  deriving DecidableEq

namespace Instr

/-- The offset of an instruction that has a jump target. -/
def offset? : Instr → Option Int32
  | jump offset | branchFirst offset | jumpIfAdvanced offset | jumpFirst offset => some offset
  | _ => none

/-- The same instruction with another offset, if it has a jump target. -/
def withOffset? (offset : Int32) : Instr → Option Instr
  | jump _ => some (jump offset)
  | branchFirst _ => some (branchFirst offset)
  | jumpIfAdvanced _ => some (jumpIfAdvanced offset)
  | jumpFirst _ => some (jumpFirst offset)
  | _ => none

/-- Whether the instruction is `accept`. -/
def isAccept : Instr → Bool
  | accept => true
  | _ => false

/-- Whether control can pass from the instruction to the one behind it. -/
def fallsThrough : Instr → Bool
  | accept | jump _ => false
  | _ => true

end Instr

/-- The offset that leads from index `pc` to index `target`, in 32 bits. -/
def offsetTo (pc target : Nat) : Int32 := Int32.ofNat target - Int32.ofNat pc

end PatternVM
