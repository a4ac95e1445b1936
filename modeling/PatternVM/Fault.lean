/-!
# Faults

Why a run ends without an answer. A text that does not match is no fault. A `Defect` says what is wrong
with a program; a `Fault` says what ended the run, and has a stable negative code for hosts that report
numbers.
-/

namespace PatternVM

/-- What is wrong with a program at some index. -/
inductive Defect
  /-- No instruction accepts. -/
  | noAccept
  /-- A jump leads to `target`, outside a program of `size` instructions. -/
  | jumpOutOfRange (target : Int) (size : Nat)
  /-- Class number `id` is not in the class table. -/
  | classOutOfRange (id : Nat)
  /-- Control can pass from the last instruction to the place behind it. -/
  | openEnd
  /-- Control has got behind the last instruction. -/
  | pastEnd
  /-- The alternative of a jump lies behind the last instruction. -/
  | alternativePastEnd
  /-- A `jumpIfAdvanced` found no saved position. -/
  | nothingSaved
  /-- A defect that a host describes in its own words. -/
  | other (description : String)
  deriving DecidableEq

/-- The wording of a defect. -/
def Defect.message : Defect → String
  | noAccept => "program has no accept"
  | jumpOutOfRange target size => s!"jump target {target} out of range 0..{size}"
  | classOutOfRange id => s!"class #{id} out of range"
  | openEnd => "falls through past the end"
  | pastEnd => "program position past the end"
  | alternativePastEnd => "fallthrough past the end"
  | nothingSaved => "jump_if_advanced without a saved position"
  | other description => description

/-- What ended a run without an answer. -/
inductive Fault
  /-- A stack could not be given more storage. No search here ends with it, since storage is taken to be granted; the
  fault is there for hosts that have to tell. -/
  | outOfMemory
  /-- One more choice point would have exceeded the limit. -/
  | choiceLimit
  /-- The program has a defect at index `pc`. -/
  | corrupt (pc : Nat) (defect : Defect)
  deriving DecidableEq

namespace Fault

/-- The wording of a fault. -/
def message : Fault → String
  | outOfMemory => "out of memory for match stack"
  | choiceLimit => "match-stack limit over"
  | corrupt pc defect => s!"corrupt program at {pc}: " ++ defect.message

/-- The stable number of a fault. -/
def code : Fault → Int
  | outOfMemory => -5
  | choiceLimit => -15
  | corrupt .. => -13

/-- Whether the fault lies in the program rather than in a lack of room. -/
def isCorrupt : Fault → Bool
  | corrupt .. => true
  | _ => false

end Fault

end PatternVM
