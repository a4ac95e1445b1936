import PatternVM.Listing.Program
import PatternVM.Machine.Event

/-!
# Event lines

The text of the events that a search reports, each with its level in front.
-/

namespace PatternVM

namespace Listing

/-- The name of a stack. -/
def store : Store → List Char
  | .choices => "run stack".toList
  | .marks => "position stack".toList

/-- The text of a step: where the thread stands, the number of choice points, and the instruction. -/
def step (t : Thread) (depth : Nat) (i : Instr) : List Char :=
  rightAligned t.pc ++ " s=".toList ++ leftAligned t.pos ++ " u=".toList ++
    decimal t.unanchored.toNat ++ " frames=".toList ++ decimal depth ++ [' '] ++ instr i

/-- The text of an event, with its level. -/
def event : Event → List Char
  | .grown s capacity =>
    "DEBUG rexstack: ".toList ++ store s ++ " grown to ".toList ++ decimal capacity ++
      " entries".toList
  | .step t depth i => "TRACE rexexec: ".toList ++ step t depth i
  | .scanned literalSize textSize found =>
    "DEBUG rexexec: literal fast path, ".toList ++ decimal literalSize ++ " bytes in ".toList ++
      decimal textSize ++ (if found then " -> true" else " -> false").toList
  | .answered found steps backtracks peak =>
    (if found then "DEBUG rexexec: match" else "DEBUG rexexec: no match").toList ++
      " after ".toList ++ decimal steps ++ " steps, ".toList ++ decimal backtracks ++
      " backtracks, ".toList ++ decimal peak ++ " frames".toList
  | .stopped fault =>
    (if fault.isCorrupt then "WARN rexexec: " else "DEBUG rexexec: aborted: ").toList ++
      fault.message.toList

end Listing

/-- The line of an event. -/
def Event.line (e : Event) : String := String.ofList (Listing.event e)

end PatternVM
