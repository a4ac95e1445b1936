import PatternVM.Stack.Growth

/-!
# The stack of saved positions

The saved positions of a thread form a list, newest first, that is kept in an array of slots. Each slot
links to the one below it by a distance. The head is a free slot on top, whose link leads to the newest
saved position, and slot 0 is the bottom of the list.

A choice point remembers the head and its link (`bookmark`), which is enough to bring its list back later
(`restore`), provided that none of its slots has been written over in between. Each position therefore
carries its *owner*, the number of choice points at the time it was saved. Taking the newest position off
frees its slot only if no choice point has been queued since; otherwise the head's link is led past it.
-/

namespace PatternVM

/-- A saved position, with the number of choice points at the time it was saved. -/
structure Mark where
  pos : Nat
  owner : Nat
  deriving DecidableEq

/-- One place of the stack: what is saved in it, and the distance down to the next slot of the list. -/
structure Slot where
  mark : Option Mark
  link : Nat
  deriving DecidableEq

namespace Slot

/-- The slot at the bottom, where every list ends. -/
def bottom : Slot := ⟨none, 0⟩

/-- A slot that has just become the head. -/
def fresh : Slot := ⟨none, 1⟩

end Slot

/-- The head of a stack and its link, by which the list can be brought back. -/
structure Bookmark where
  top : Nat
  link : Nat
  deriving DecidableEq

/-- Whether the cursor has left a saved position. -/
inductive Motion
  | still
  | moved
  deriving DecidableEq

/-- How the cursor stands to a saved position. -/
def Motion.since (saved cursor : Nat) : Motion :=
  if saved = cursor then still else moved

/-- A stack of saved positions. -/
structure MarkStack where
  slots : Array Slot
  top : Nat
  capacity : Nat
  deriving DecidableEq

namespace MarkStack

/-- A stack without storage. It gets its first slots from `reset`. -/
def empty : MarkStack := ⟨#[], 0, 0⟩

/-- The slot at index `i`. -/
def slot (m : MarkStack) (i : Nat) : Slot := m.slots[i]?.getD .fresh

/-- Forgets all positions and keeps the storage. Room for the first two slots is granted. -/
def reset (m : MarkStack) : MarkStack where
  slots := #[.bottom, .fresh]
  top := 1
  capacity := roomForOne 1 (roomForOne 0 m.capacity)

/-- What a choice point has to remember. -/
def bookmark (m : MarkStack) : Bookmark := ⟨m.top, (m.slot m.top).link⟩

/-- Brings back the list that was there when the bookmark was made. -/
def restore (m : MarkStack) (b : Bookmark) : MarkStack where
  slots := m.slots.setIfInBounds b.top { m.slot b.top with link := b.link }
  top := b.top
  capacity := m.capacity

/-- Saves `pos` in the head slot and makes the slot above it the head, appending one if there is none. Room for it is
granted. -/
def push (m : MarkStack) (pos owner : Nat) : MarkStack :=
  let slots := m.slots.setIfInBounds m.top { m.slot m.top with mark := some ⟨pos, owner⟩ }
  let next := m.top + 1
  if next = slots.size then
    { slots := slots.push .fresh, top := next, capacity := roomForOne next m.capacity }
  else
    { slots := slots.setIfInBounds next .fresh, top := next, capacity := m.capacity }

/-- The index that the slot at index `i` links to. -/
def below (m : MarkStack) (i : Nat) : Nat := i - (m.slot i).link

/-- The newest saved position. -/
def newest? (m : MarkStack) : Option Mark := (m.slot (m.below m.top)).mark

/-- Takes the newest saved position off. Its slot becomes the head if the position belongs to the present
number `owner` of choice points; otherwise a choice point may still need the slot, and the head's link is
led past it. -/
def drop (m : MarkStack) (owner : Nat) : MarkStack :=
  let prev := m.below m.top
  match m.newest? with
  | none => m
  | some mark =>
    if mark.owner = owner then
      { m with top := prev }
    else
      let head := m.slot m.top
      let link := head.link + (m.slot prev).link
      { slots := m.slots.setIfInBounds m.top { head with link }, top := m.top, capacity := m.capacity }

/-- Takes the newest saved position off and says how `cursor` stands to it. Without a saved position
nothing happens. -/
def check (m : MarkStack) (cursor owner : Nat) : Option Motion × MarkStack :=
  (m.newest?.map fun mark => .since mark.pos cursor, m.drop owner)

/-- The saved positions from slot `i` down. -/
def chain (slots : Array Slot) (i : Nat) : List Nat :=
  match slots[i]? with
  | some ⟨some mark, link⟩ =>
    mark.pos :: if 0 < link ∧ link ≤ i then chain slots (i - link) else []
  | _ => []
termination_by i

/-- The saved positions, newest first. -/
def toList (m : MarkStack) : List Nat := chain m.slots (m.below m.top)

end MarkStack

end PatternVM
