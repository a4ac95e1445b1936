import PatternVM.Fault
import PatternVM.Instr
import PatternVM.Stack.Choice

/-!
# Events

What a search reports while it runs.
-/

namespace PatternVM

/-- The two stacks whose storage can grow. -/
inductive Store
  | choices
  | marks
  deriving DecidableEq

/-- Something that a search reports. -/
inductive Event
  /-- A stack has been given room for `capacity` entries. -/
  | grown (store : Store) (capacity : Nat)
  /-- A thread is about to perform an instruction, with `depth` choice points on the stack. -/
  | step (thread : Thread) (depth : Nat) (instr : Instr)
  /-- A literal was searched for without running the program. -/
  | scanned (literalSize textSize : Nat) (found : Bool)
  /-- A run has ended with an answer. -/
  | answered (found : Bool) (steps backtracks peak : Nat)
  /-- A run has ended without an answer. -/
  | stopped (fault : Fault)
  deriving DecidableEq

/-- What has been reported, in order. -/
abbrev Log := Array Event

/-- Reports that the capacity of a stack has changed, if it has. -/
def Log.addGrowth (log : Log) (store : Store) (before after : Nat) : Log :=
  if before = after then log else log.push (.grown store after)

end PatternVM
