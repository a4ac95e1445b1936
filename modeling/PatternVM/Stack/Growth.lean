/-!
# Growth of stack storage

The stacks of the machine keep their storage from one match to the next and enlarge it by a fixed number
of entries whenever one more entry does not fit.

Storage is taken to be granted whenever it is asked for. So the operations of the stacks never give the fault
`outOfMemory`, and a search never ends with it; what a stack would look like after storage has been refused is left
open.
-/

namespace PatternVM

/-- The number of entries by which storage grows. -/
def growth : Nat := 16

/-- The capacity of a store with `used` entries after room for one more has been made, which never fails. -/
def roomForOne (used capacity : Nat) : Nat :=
  if used = capacity then capacity + growth else capacity

end PatternVM
