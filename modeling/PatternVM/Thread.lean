/-!
# Threads

A thread is one way of going on with a search.
-/

namespace PatternVM

/-- Where a search stands: the index of the next instruction, the cursor in the text, and whether the next
token may be looked for behind the cursor too (`unanchored`) or has to stand at it. -/
structure Thread where
  pc : Nat
  pos : Nat
  unanchored : Bool
  deriving DecidableEq

/-- The start of every search, which may find its match anywhere. -/
def Thread.start : Thread := ⟨0, 0, true⟩

end PatternVM
