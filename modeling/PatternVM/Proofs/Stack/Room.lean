import PatternVM.Proofs.Stack.Links

/-!
# Room

The room on the stacks. A store is enlarged only when it is full, by a fixed number of entries. So it has just the
room that the greatest number of entries so far has needed, and what has been reported are the enlargements up to
that room, each of them once (`Stocked`).
-/

namespace PatternVM

/-- What is reported of a capacity: the new one, if it has changed. -/
def grown (before after : Nat) : List Nat := if before = after then [] else [after]

/-- The capacity of a store whose entries have never been more than `n`. -/
def roomFor (n : Nat) : Nat := growth * ((n + growth - 1) / growth)

/-- The capacities that a store goes through until it has room for `n` entries. -/
def enlargements (n : Nat) : List Nat := (List.range ((n + growth - 1) / growth)).map fun i => growth * (i + 1)

/-- A store that has had `high` entries at most has just the room for them, and `lines` is what has been reported of
its growth. -/
structure Stocked (high capacity : Nat) (lines : List Nat) : Prop where
  capacity : capacity = roomFor high
  lines : lines = enlargements high

/-- There is room for all entries. -/
lemma le_roomFor (n : Nat) : n ≤ roomFor n := by
  rw [roomFor, growth]
  omega

namespace Stocked

variable {high capacity used : Nat} {lines : List Nat}

/-- Room for one more entry is the room for one entry more. -/
lemma enlarge (h : Stocked high capacity lines) (le : used ≤ high) :
    Stocked (max high (used + 1)) (roomForOne used capacity)
      (lines ++ grown capacity (roomForOne used capacity)) := by
  obtain ⟨rfl, rfl⟩ := h
  have room := le_roomFor high
  by_cases full : used = roomFor high
  · -- the store has never had more entries than now, so one more is more than there was room for
    have greatest : max high (used + 1) = used + 1 := by omega
    have more : (used + 1 + growth - 1) / growth = (high + growth - 1) / growth + 1 := by
      rw [roomFor, growth] at full
      rw [growth]
      omega
    have larger : roomForOne used (roomFor high) = roomFor high + growth := if_pos full
    have reported : grown (roomFor high) (roomFor high + growth) = [roomFor high + growth] :=
      if_neg (Nat.ne_of_lt (Nat.lt_add_of_pos_right (Nat.succ_pos 15)))
    rw [larger, reported, greatest]
    refine ⟨?_, ?_⟩
    · rw [roomFor, roomFor, more, Nat.mul_succ]
    · rw [enlargements, enlargements, more, List.range_succ, List.map_append]
      rfl
  · have same : (max high (used + 1) + growth - 1) / growth = (high + growth - 1) / growth := by
      rw [roomFor, growth] at full room
      rw [growth]
      omega
    have enough : roomForOne used (roomFor high) = roomFor high := if_neg full
    have reported : grown (roomFor high) (roomFor high) = [] := if_pos rfl
    rw [enough, reported, List.append_nil]
    refine ⟨?_, ?_⟩
    · rw [roomFor, roomFor, same]
    · rw [enlargements, enlargements, same]

/-- A store that is made ready for two entries is enlarged once at most. -/
lemma enlarge_two (h : Stocked high capacity lines) :
    Stocked (max high 2) (roomForOne 1 (roomForOne 0 capacity))
      (lines ++ grown capacity (roomForOne 1 (roomForOne 0 capacity))) := by
  have one := h.enlarge (Nat.zero_le high)
  have two := one.enlarge (Nat.le_max_right high 1)
  have room : roomForOne 0 capacity ≠ 1 := by
    rw [one.capacity, roomFor, growth]
    omega
  have enough : roomForOne 1 (roomForOne 0 capacity) = roomForOne 0 capacity := if_neg room.symm
  have greatest : max (max high (0 + 1)) (1 + 1) = max high 2 := by omega
  have reported : grown (roomForOne 0 capacity) (roomForOne 0 capacity) = [] := if_pos rfl
  rw [enough, greatest, reported, List.append_nil] at two
  rw [enough]
  exact two

end Stocked

/-- Each enlargement is greater than the one before. -/
lemma enlargements_lt (n : Nat) : (enlargements n).Pairwise (· < ·) := by
  refine List.pairwise_map.mpr (List.pairwise_lt_range.imp fun lt => ?_)
  exact Nat.mul_lt_mul_of_pos_left (Nat.succ_lt_succ lt) (Nat.succ_pos 15)

namespace MarkStack

variable {m : MarkStack} {pos owner : Nat}

/-- Taking a position off leaves the number of slots as it is. -/
lemma size_drop : (m.drop owner).slots.size = m.slots.size := by
  rw [drop]
  split
  · rfl
  · split
    · rfl
    · exact Array.size_setIfInBounds

/-- Taking a position off leaves the capacity as it is. -/
lemma capacity_drop : (m.drop owner).capacity = m.capacity := by
  rw [drop]
  split
  · rfl
  · split
    · rfl
    · rfl

/-- Either there is a slot for the new head already, or one more is needed. -/
lemma push_cases :
    (m.push pos owner).slots.size = m.slots.size ∧ (m.push pos owner).capacity = m.capacity ∨
      (m.push pos owner).slots.size = m.slots.size + 1 ∧
        (m.push pos owner).capacity = roomForOne m.slots.size m.capacity := by
  rw [push]
  split
  · rename_i last
    rw [Array.size_setIfInBounds] at last
    refine .inr ⟨?_, congrArg (roomForOne · m.capacity) last⟩
    rw [Array.size_push, Array.size_setIfInBounds]
  · refine .inl ⟨?_, rfl⟩
    rw [Array.size_setIfInBounds, Array.size_setIfInBounds]

end MarkStack

end PatternVM
