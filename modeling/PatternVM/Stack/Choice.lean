import PatternVM.Fault
import PatternVM.Stack.Mark
import PatternVM.Thread

/-!
# The stack of choice points

A choice point is an alternative that a search has put off: where to go on, and which positions were saved
at that time. The newest one is taken up first. The stack can be given a limit; it refuses a choice point
that would exceed it, and is otherwise not changed by the refusal.
-/

namespace PatternVM

/-- An alternative that has been put off, and the saved positions that belong to it. -/
structure ChoicePoint where
  thread : Thread
  saved : Bookmark
  deriving DecidableEq

/-- A stack of choice points. A `limit` of 0 stands for no limit, and `peak` is the greatest depth since
the last `reset`. The `capacity` is both the room that the storage has and what the stack remembers of it: the stack
reads it again whenever the storage has grown, and the storage does not change otherwise. -/
structure ChoiceStack where
  points : Array ChoicePoint
  capacity : Nat
  limit : Nat
  peak : Nat
  deriving DecidableEq

namespace ChoiceStack

/-- A stack without storage. -/
def ofLimit (limit : Nat) : ChoiceStack := ⟨#[], 0, limit, 0⟩

/-- The number of choice points. -/
def depth (s : ChoiceStack) : Nat := s.points.size

/-- Whether there is no choice point. -/
def isEmpty (s : ChoiceStack) : Bool := s.points.isEmpty

/-- Whether the limit refuses one more choice point. -/
def isFull (s : ChoiceStack) : Bool := s.limit ≠ 0 && s.limit ≤ s.depth

/-- Forgets all choice points and the peak, and keeps the storage. -/
def reset (s : ChoiceStack) : ChoiceStack := { s with points := #[], peak := 0 }

/-- Changes the limit, and keeps the choice points even if they exceed it. -/
def withLimit (s : ChoiceStack) (limit : Nat) : ChoiceStack := { s with limit }

/-- Adds a choice point unless the limit refuses it. Storage for it is granted. -/
def push (s : ChoiceStack) (c : ChoicePoint) : Except Fault Unit × ChoiceStack :=
  if s.isFull then
    (.error .choiceLimit, s)
  else
    let depth := s.depth
    (.ok (),
      { s with
        points := s.points.push c
        capacity := roomForOne depth s.capacity
        peak := max s.peak (depth + 1) })

/-- Takes the newest choice point off. -/
def pop (s : ChoiceStack) : Option ChoicePoint × ChoiceStack :=
  (s.points.back?, { s with points := s.points.pop })

end ChoiceStack

end PatternVM
