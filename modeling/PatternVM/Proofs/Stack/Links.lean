import Mathlib.Tactic.Common
import PatternVM.Stack.Mark

/-!
# Linked slots

A stack of saved positions is *linked* when each slot above the bottom leads to a lower one and the head is
such a slot. Every operation keeps a stack linked, whatever owners it is given, and a linked stack is read
as a list: `push` is `cons`, `drop` is `tail`, the newest position is the first one.

The list that starts at a slot depends on the slots from there down only (`Linked.chain_congr`). All laws
below come from that: an operation writes at the head or above it, and every link leads further down.
-/

namespace PatternVM

/-- A bookmark whose head is a slot of the stack, with a link that leads to a lower one. -/
structure Bookmark.Fits (b : Bookmark) (m : MarkStack) : Prop where
  link_pos : 0 < b.link
  link_le : b.link ≤ b.top
  top_lt : b.top < m.slots.size

namespace MarkStack

/-- Every slot above the bottom leads to a lower one, and the head is such a slot. -/
structure Linked (m : MarkStack) : Prop where
  bottom : (m.slot 0).mark = none
  link_pos : ∀ {i}, 0 < i → 0 < (m.slot i).link
  link_le : ∀ {i}, 0 < i → (m.slot i).link ≤ i
  top_pos : 0 < m.top
  top_lt : m.top < m.slots.size

/-- The list that a bookmark leads to. -/
def listAt (m : MarkStack) (b : Bookmark) : List Nat := chain m.slots (b.top - b.link)

variable {m m' : MarkStack} {i pos owner : Nat} {b : Bookmark} {mark : Mark}

/-! ## What the operations write -/

/-- Saving writes the head and the slot above it. -/
lemma slot_push (lt : m.top < m.slots.size) :
    (m.push pos owner).slot i =
      if i = m.top then { m.slot m.top with mark := some ⟨pos, owner⟩ }
      else if i = m.top + 1 then .fresh
      else m.slot i := by
  simp only [push, slot, Array.size_setIfInBounds]
  split
  · simp only [Array.getElem?_push, Array.getElem?_setIfInBounds, Array.size_setIfInBounds]
    grind
  · simp only [Array.getElem?_setIfInBounds, Array.size_setIfInBounds]
    grind

/-- Saving a position moves the head up by one slot. -/
lemma top_push : (m.push pos owner).top = m.top + 1 := by
  simp only [push]
  split <;> rfl

/-- The new head links to the slot in which the position was saved. -/
lemma below_top_push (lt : m.top < m.slots.size) :
    (m.push pos owner).below (m.push pos owner).top = m.top := by
  rw [below, top_push, slot_push lt, if_neg (Nat.succ_ne_self m.top), if_pos rfl]
  rfl

/-- Saving a position takes no slot away, and there is one for the new head. -/
lemma size_push (lt : m.top < m.slots.size) :
    m.slots.size ≤ (m.push pos owner).slots.size ∧ m.top + 1 < (m.push pos owner).slots.size := by
  simp only [push, Array.size_setIfInBounds]
  split
  · simp only [Array.size_push, Array.size_setIfInBounds]
    omega
  · simp only [Array.size_setIfInBounds]
    omega

/-- Restoring writes the link of the head that it brings back. -/
lemma slot_restore (lt : b.top < m.slots.size) :
    (m.restore b).slot i = if i = b.top then { m.slot b.top with link := b.link } else m.slot i := by
  simp only [restore, slot, Array.getElem?_setIfInBounds]
  grind

/-- Bringing a list back leaves the number of slots as it is. -/
lemma size_restore : (m.restore b).slots.size = m.slots.size := Array.size_setIfInBounds

/-- After a list has been brought back its bookmark is the same. -/
lemma bookmark_restore (lt : b.top < m.slots.size) : (m.restore b).bookmark = b := by
  rw [bookmark, slot_restore lt]
  exact congrArg (Bookmark.mk b.top ·) (congrArg Slot.link (if_pos rfl))

/-- After a list has been brought back the head links to where the bookmark leads. -/
lemma below_top_restore (lt : b.top < m.slots.size) :
    (m.restore b).below (m.restore b).top = b.top - b.link :=
  congrArg (fun b : Bookmark => b.top - b.link) (bookmark_restore lt)

/-- Without a saved position there is nothing to take off. -/
lemma drop_of_none (h : m.newest? = none) : m.drop owner = m := by
  simp only [drop, h]

/-- A position of the present owner is taken off by moving the head down to its slot. -/
lemma drop_of_owner_eq (h : m.newest? = some mark) (e : mark.owner = owner) :
    m.drop owner = { m with top := m.below m.top } := by
  simp only [drop, h, if_pos e]

/-- A position of an earlier owner is taken off by leading the link of the head past it. -/
lemma drop_of_owner_ne (h : m.newest? = some mark) (ne : mark.owner ≠ owner) :
    m.drop owner = m.restore ⟨m.top, (m.slot m.top).link + (m.slot (m.below m.top)).link⟩ := by
  simp only [drop, h, if_neg ne, restore]

/-- A check compares the cursor with the newest position. -/
lemma check_eq_since (m : MarkStack) (cursor owner : Nat) :
    (m.check cursor owner).1 = (m.newest?.map Mark.pos).map (Motion.since · cursor) := by
  rw [check, Option.map_map]
  rfl

/-! ## Lists and links -/

/-- At a slot without a position the list ends. -/
lemma chain_of_none (h : (m.slot i).mark = none) : chain m.slots i = [] := by
  rw [chain]
  split
  · rename_i e
    simp [slot, e] at h
  · rfl

/-- A slot that holds a position is one of the stack's own. -/
lemma getElem?_slots (h : (m.slot i).mark = some mark) :
    m.slots[i]? = some ⟨some mark, (m.slot i).link⟩ := by
  rw [slot] at h ⊢
  cases e : m.slots[i]? with
  | none =>
    rw [e] at h
    cases h
  | some s =>
    rw [e] at h
    rw [← h]
    rfl

namespace Linked

/-- No position is saved in the bottom slot. -/
lemma pos_of_mark (lk : m.Linked) (h : (m.slot i).mark = some mark) : 0 < i := by
  rcases Nat.eq_zero_or_pos i with rfl | pos
  · rw [lk.bottom] at h
    cases h
  · exact pos

/-- Slots above the bottom link to lower ones. -/
lemma below_lt (lk : m.Linked) (pos : 0 < i) : m.below i < i := Nat.sub_lt pos (lk.link_pos pos)

/-- At a slot with a position the list goes on with that and then from the slot below. -/
lemma chain_of_some (lk : m.Linked) (h : (m.slot i).mark = some mark) :
    chain m.slots i = mark.pos :: chain m.slots (m.below i) := by
  have pos := lk.pos_of_mark h
  rw [chain, getElem?_slots h]
  exact congrArg (mark.pos :: ·) (if_pos ⟨lk.link_pos pos, lk.link_le pos⟩)

/-- The list that starts at a slot depends on the slots from there down only. -/
lemma chain_congr (lk : m.Linked) (lk' : m'.Linked) (same : ∀ j ≤ i, m'.slot j = m.slot j) :
    chain m'.slots i = chain m.slots i := by
  -- links lead down, so the induction is on the slot
  induction i using Nat.strongRecOn with
  | ind i ih =>
    have here := same i (Nat.le_refl i)
    cases e : (m.slot i).mark with
    | none => rw [chain_of_none e, chain_of_none (here ▸ e)]
    | some mark =>
      have lt := lk.below_lt (lk.pos_of_mark e)
      have same_below : m'.below i = m.below i := by rw [below, below, here]
      rw [lk.chain_of_some e, lk'.chain_of_some (here ▸ e), same_below]
      rw [ih _ lt fun j le => same j (Nat.le_trans le (Nat.le_of_lt lt))]

/-- Two stacks that agree below the head of a bookmark agree on its list. -/
lemma listAt_congr (lk : m.Linked) (lk' : m'.Linked) (pos : 0 < b.link) (le : b.link ≤ b.top)
    (same : ∀ j < b.top, m'.slot j = m.slot j) : m'.listAt b = m.listAt b := by
  refine lk.chain_congr lk' fun j lej => same j ?_
  omega

/-! ## Every operation keeps a stack linked -/

/-- A stack that has been reset is linked. -/
protected lemma reset (m : MarkStack) : m.reset.Linked where
  bottom := rfl
  link_pos {i} pos := by
    match i, pos with
    | 1, _ => exact Nat.one_pos
    | _ + 2, _ => exact Nat.one_pos
  link_le {i} pos := by
    match i, pos with
    | 1, _ => exact Nat.le_refl 1
    | k + 2, _ => exact Nat.succ_le_succ (Nat.zero_le (k + 1))
  top_pos := Nat.one_pos
  top_lt := Nat.lt_succ_self 1

/-- The present bookmark of a linked stack fits it. -/
lemma fits (lk : m.Linked) : m.bookmark.Fits m where
  link_pos := lk.link_pos lk.top_pos
  link_le := lk.link_le lk.top_pos
  top_lt := lk.top_lt

/-- Saving a position keeps a stack linked. -/
protected lemma push (lk : m.Linked) (pos owner : Nat) : (m.push pos owner).Linked := by
  have top_pos := lk.top_pos
  refine ⟨?_, fun {i} pos => ?_, fun {i} pos => ?_, ?_, ?_⟩
  · rw [slot_push lk.top_lt, if_neg (by omega), if_neg (by omega)]
    exact lk.bottom
  · rw [slot_push lk.top_lt]
    split
    · exact lk.link_pos top_pos
    · split
      · exact Nat.one_pos
      · exact lk.link_pos pos
  · rw [slot_push lk.top_lt]
    split
    · rename_i e
      rw [e]
      exact lk.link_le top_pos
    · split
      · exact pos
      · exact lk.link_le pos
  · rw [top_push]
    exact Nat.succ_pos m.top
  · rw [top_push]
    exact (size_push lk.top_lt).2

/-- Bringing a list back keeps a stack linked, if the bookmark fits. -/
protected lemma restore (lk : m.Linked) (fits : b.Fits m) : (m.restore b).Linked := by
  have top_pos : 0 < b.top := Nat.lt_of_lt_of_le fits.link_pos fits.link_le
  refine ⟨?_, fun {i} pos => ?_, fun {i} pos => ?_, top_pos, ?_⟩
  · rw [slot_restore fits.top_lt, if_neg (Nat.ne_of_lt top_pos)]
    exact lk.bottom
  · rw [slot_restore fits.top_lt]
    split
    · exact fits.link_pos
    · exact lk.link_pos pos
  · rw [slot_restore fits.top_lt]
    split
    · rename_i e
      rw [e]
      exact fits.link_le
    · exact lk.link_le pos
  · rw [size_restore]
    exact fits.top_lt

/-- Leading the link of the head past the newest position gives a bookmark again. -/
lemma fits_past (lk : m.Linked) (h : m.newest? = some mark) :
    Bookmark.Fits ⟨m.top, (m.slot m.top).link + (m.slot (m.below m.top)).link⟩ m where
  link_pos := Nat.add_pos_left (lk.link_pos lk.top_pos) _
  link_le := by
    have link_le := lk.link_le lk.top_pos
    have below_le : (m.slot (m.below m.top)).link ≤ m.top - (m.slot m.top).link :=
      lk.link_le (lk.pos_of_mark h)
    exact Nat.add_le_of_le_sub' link_le below_le
  top_lt := lk.top_lt

/-- Taking a position off keeps a stack linked. -/
protected lemma drop (lk : m.Linked) (owner : Nat) : (m.drop owner).Linked := by
  cases e : m.newest? with
  | none =>
    rw [drop_of_none e]
    exact lk
  | some mark =>
    by_cases same : mark.owner = owner
    · rw [drop_of_owner_eq e same]
      have lt := Nat.lt_trans (lk.below_lt lk.top_pos) lk.top_lt
      exact ⟨lk.bottom, lk.link_pos, lk.link_le, lk.pos_of_mark e, lt⟩
    · rw [drop_of_owner_ne e same]
      exact lk.restore (lk.fits_past e)

/-! ## A linked stack is a list -/

/-- The newest position is the first of the list. -/
lemma newest?_map_pos (lk : m.Linked) : m.newest?.map Mark.pos = m.toList.head? := by
  rw [toList]
  cases e : m.newest? with
  | none =>
    rw [chain_of_none e]
    rfl
  | some mark =>
    rw [lk.chain_of_some e]
    rfl

/-- Saving a position puts it in front of the list. -/
lemma toList_push (lk : m.Linked) (pos owner : Nat) :
    (m.push pos owner).toList = pos :: m.toList := by
  have lk' := lk.push pos owner
  have mark : ((m.push pos owner).slot m.top).mark = some ⟨pos, owner⟩ := by
    rw [slot_push lk.top_lt, if_pos rfl]
  have same_below : (m.push pos owner).below m.top = m.below m.top := by
    rw [below, below, slot_push lk.top_lt, if_pos rfl]
  have lt := lk.below_lt lk.top_pos
  rw [toList, below_top_push lk.top_lt, lk'.chain_of_some mark, same_below, toList]
  refine congrArg (pos :: ·) (lk.chain_congr lk' fun j le => ?_)
  rw [slot_push lk.top_lt, if_neg (by omega), if_neg (by omega)]

/-- After a list has been brought back it is the one that the bookmark leads to. -/
lemma toList_restore (lk : m.Linked) (fits : b.Fits m) : (m.restore b).toList = m.listAt b := by
  rw [toList, below_top_restore fits.top_lt]
  refine lk.listAt_congr (lk.restore fits) fits.link_pos fits.link_le fun j lt => ?_
  rw [slot_restore fits.top_lt, if_neg (Nat.ne_of_lt lt)]

/-- Taking the newest position off leaves the rest of the list, whoever it belongs to. -/
lemma toList_drop (lk : m.Linked) (owner : Nat) : (m.drop owner).toList = m.toList.tail := by
  cases e : m.newest? with
  | none =>
    rw [drop_of_none e, toList, chain_of_none e]
    rfl
  | some mark =>
    have tail : m.toList.tail = chain m.slots (m.below (m.below m.top)) := by
      rw [toList, lk.chain_of_some e]
      rfl
    rw [tail]
    by_cases same : mark.owner = owner
    · rw [drop_of_owner_eq e same]
      rfl
    · rw [drop_of_owner_ne e same, lk.toList_restore (lk.fits_past e), listAt]
      exact congrArg (chain m.slots) (Nat.sub_add_eq _ _ _)

end Linked

end MarkStack

end PatternVM
