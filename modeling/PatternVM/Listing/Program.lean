import PatternVM.Listing.Bracketed
import PatternVM.Listing.Numeral
import PatternVM.Program.Basic

/-!
# Program listings

A listing has one line for each instruction, with its index in front and the index that it may jump to
behind it, and then one line for each class.
-/

namespace PatternVM.Listing

/-- The mark of an instruction that has to finish at the end of the text. -/
def endMark (atEnd : Bool) : List Char := if atEnd then [' ', '$'] else []

/-- The text of one instruction. -/
def instr : Instr → List Char
  | .literal bytes atEnd => "str ".toList ++ quoted bytes ++ endMark atEnd
  | .byteClass id atEnd => "class #".toList ++ decimal id ++ endMark atEnd
  | .anyByte atEnd => "any".toList ++ endMark atEnd
  | .textStart atEnd => "start".toList ++ endMark atEnd
  | .textEnd => "end".toList
  | .unanchor => "unanchor".toList
  | .jump offset => "jump ".toList ++ signed offset.toInt
  | .savePos => "save_pos".toList
  | .branchFirst offset => "branch_first ".toList ++ signed offset.toInt
  | .jumpIfAdvanced offset => "jump_if_advanced ".toList ++ signed offset.toInt
  | .jumpFirst offset => "jump_first ".toList ++ signed offset.toInt
  | .accept => "accept".toList

/-- The index that the instruction at `pc` may jump to, in or outside the program. -/
def arrow (pc : Nat) (i : Instr) : List Char :=
  match i.offset? with
  | some offset => "  (-> ".toList ++ integer (pc + offset.toInt) ++ [')']
  | none => []

/-- The line of the instruction at `pc`. -/
def instrLine (pc : Nat) (i : Instr) : List Char :=
  rightAligned pc ++ [':', ' '] ++ instr i ++ arrow pc i ++ ['\n']

/-- The line of class number `id`. -/
def classLine (id : Nat) (set : ByteSet) : List Char :=
  [' ', ' ', '#'] ++ decimal id ++ [':', ' '] ++ bracketed set ++ ['\n']

/-- The lines of a program. -/
def program (p : Program) : List Char :=
  (p.code.toList.zipIdx.flatMap fun (i, pc) => instrLine pc i) ++
    p.classes.toList.zipIdx.flatMap fun (set, id) => classLine id set

end PatternVM.Listing

namespace PatternVM

/-- The text of an instruction. -/
def Instr.text (i : Instr) : String := String.ofList (Listing.instr i)

/-- The listing of a program. -/
def Program.listing (p : Program) : String := String.ofList (Listing.program p)

end PatternVM
