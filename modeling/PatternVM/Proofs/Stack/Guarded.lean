import PatternVM.Proofs.Stack.Links

/-!
# Guarded operations on saved positions

The operations of a stack of saved positions once more, with every access guarded. They yield nothing as soon
as a slot is read or written that is not in the array, or a link leads below slot 0. On a linked stack, and at
a bookmark that fits it, that never happens, and they do what the operations do. Reading the whole list is a
`Walk` from slot to slot, which ends since it is a finite derivation.
-/

namespace PatternVM

/-- The difference of two numbers, unless it is below zero. -/
def difference? (a b : Nat) : Option Nat := if b ≤ a then some (a - b) else none

/-- A difference that is not below zero is given. -/
lemma difference?_of_le {a b : Nat} (le : b ≤ a) : difference? a b = some (a - b) := if_pos le

namespace MarkStack

/-- Writes a slot, unless it is not there. -/
def write? (slots : Array Slot) (i : Nat) (slot : Slot) : Option (Array Slot) :=
  if i < slots.size then some (slots.setIfInBounds i slot) else none

/-- Guarded `bookmark`. -/
def bookmark? (m : MarkStack) : Option Bookmark := do
  let head ← m.slots[m.top]?
  return ⟨m.top, head.link⟩

/-- Guarded `restore`. -/
def restore? (m : MarkStack) (b : Bookmark) : Option MarkStack := do
  let head ← m.slots[b.top]?
  let slots ← write? m.slots b.top { head with link := b.link }
  return { slots, top := b.top, capacity := m.capacity }

/-- Guarded `push`. -/
def push? (m : MarkStack) (pos owner : Nat) : Option MarkStack := do
  let head ← m.slots[m.top]?
  let slots ← write? m.slots m.top { head with mark := some ⟨pos, owner⟩ }
  let next := m.top + 1
  if next = slots.size then
    return { slots := slots.push .fresh, top := next, capacity := roomForOne next m.capacity }
  else
    let slots ← write? slots next .fresh
    return { slots, top := next, capacity := m.capacity }

/-- The slot that the head links to, with its index and the head itself. -/
def newestSlot? (m : MarkStack) : Option (Slot × Nat × Slot) := do
  let head ← m.slots[m.top]?
  let prev ← difference? m.top head.link
  let slot ← m.slots[prev]?
  return (head, prev, slot)

/-- Guarded `drop`. -/
def drop? (m : MarkStack) (owner : Nat) : Option MarkStack := do
  let (head, prev, slot) ← m.newestSlot?
  match slot.mark with
  | none => return m
  | some mark =>
    if mark.owner = owner then
      return { m with top := prev }
    else
      let slots ← write? m.slots m.top { head with link := head.link + slot.link }
      return { slots, top := m.top, capacity := m.capacity }

/-- A walk down the links from a slot, which reads a list of positions. -/
inductive Walk (slots : Array Slot) : Nat → List Nat → Prop where
  | stop {i link} :
    slots[i]? = some ⟨none, link⟩ →
    Walk slots i []
  | next {i mark link below saved} :
    slots[i]? = some ⟨some mark, link⟩ →
    difference? i link = some below →
    Walk slots below saved →
    Walk slots i (mark.pos :: saved)

/-- Reading all positions from the newest on, where the head links to. -/
def Reads (m : MarkStack) (saved : List Nat) : Prop :=
  ∃ head first, m.slots[m.top]? = some head ∧ difference? m.top head.link = some first ∧
    Walk m.slots first saved

variable {m : MarkStack} {i pos owner : Nat} {b : Bookmark} {slots : Array Slot} {slot : Slot}

/-- A slot that is there is written. -/
lemma write?_of_lt (lt : i < slots.size) : write? slots i slot = some (slots.setIfInBounds i slot) := if_pos lt

/-- A slot that is there is read. -/
lemma getElem?_of_lt (lt : i < m.slots.size) : m.slots[i]? = some (m.slot i) := by
  rw [slot, Array.getElem?_eq_getElem lt]
  rfl

/-- No guard of `restore` fails if the head of the bookmark is a slot. -/
lemma restore?_eq (lt : b.top < m.slots.size) : m.restore? b = some (m.restore b) := by
  simp only [restore?, getElem?_of_lt lt, write?_of_lt lt, restore]
  rfl

namespace Linked

/-- On a linked stack no guard of `bookmark` fails. -/
lemma bookmark?_eq (lk : m.Linked) : m.bookmark? = some m.bookmark := by
  simp only [bookmark?, getElem?_of_lt lk.top_lt, bookmark]
  rfl

/-- On a linked stack no guard of `push` fails. -/
lemma push?_eq (lk : m.Linked) (pos owner : Nat) : m.push? pos owner = some (m.push pos owner) := by
  have lt := lk.top_lt
  simp only [push?, getElem?_of_lt lt, write?_of_lt lt, push, Option.bind_eq_bind, Option.bind_some]
  split
  · rfl
  · rename_i inside
    -- the head is a slot, so the one above it is one too or has to be appended
    have next_lt : m.top + 1 < (m.slots.setIfInBounds m.top
        { m.slot m.top with mark := some ⟨pos, owner⟩ }).size := by
      rw [Array.size_setIfInBounds] at inside ⊢
      omega
    rw [write?_of_lt next_lt]
    rfl

/-- On a linked stack the head and the slot that it links to can be read. -/
lemma newestSlot?_eq (lk : m.Linked) :
    m.newestSlot? = some (m.slot m.top, m.below m.top, m.slot (m.below m.top)) := by
  have below_lt := Nat.lt_trans (lk.below_lt lk.top_pos) lk.top_lt
  have link_le := lk.link_le lk.top_pos
  simp only [newestSlot?, getElem?_of_lt lk.top_lt, difference?_of_le link_le, Option.bind_eq_bind,
    Option.bind_some]
  rw [← below, getElem?_of_lt below_lt]
  rfl

/-- On a linked stack no guard of `drop` fails. -/
lemma drop?_eq (lk : m.Linked) (owner : Nat) : m.drop? owner = some (m.drop owner) := by
  simp only [drop?, lk.newestSlot?_eq, Option.bind_eq_bind, Option.bind_some, drop, newest?]
  cases (m.slot (m.below m.top)).mark with
  | none => rfl
  | some mark =>
    simp only
    split
    · rfl
    · rw [write?_of_lt lk.top_lt]
      rfl

/-- A walk from any slot ends, and reads the list that begins there. -/
lemma walk (lk : m.Linked) (lt : i < m.slots.size) : Walk m.slots i (chain m.slots i) := by
  -- links lead down, so the induction is on the slot
  induction i using Nat.strongRecOn with
  | ind i ih =>
    cases e : (m.slot i).mark with
    | none =>
      have here : m.slots[i]? = some ⟨none, (m.slot i).link⟩ := by rw [getElem?_of_lt lt, ← e]
      rw [chain_of_none e]
      exact .stop here
    | some mark =>
      have pos := lk.pos_of_mark e
      have below_lt := lk.below_lt pos
      rw [lk.chain_of_some e]
      refine .next (getElem?_slots e) (difference?_of_le (lk.link_le pos)) ?_
      exact ih (m.below i) below_lt (Nat.lt_trans below_lt lt)

/-- On a linked stack all positions can be read, and these are its list. -/
lemma reads (lk : m.Linked) : m.Reads m.toList := by
  have below_lt := Nat.lt_trans (lk.below_lt lk.top_pos) lk.top_lt
  refine ⟨m.slot m.top, m.below m.top, getElem?_of_lt lk.top_lt, ?_, lk.walk below_lt⟩
  exact difference?_of_le (lk.link_le lk.top_pos)

end Linked

end MarkStack

end PatternVM
