import PatternVM.Proofs.Stack.Guarded
import PatternVM.Proofs.Stack.Room

/-!
# Free use

A stack of saved positions in the hands of a client that keeps to no discipline: it passes whatever owners it likes,
and it brings back any bookmark that it has taken since the last reset, however stale. A stale bookmark may lead to
another list than the one that it was taken of, since slots below its head may have been written over. But it still
fits the stack, because the number of slots never goes down. So the stack stays linked, and on a linked stack each
operation does to the list what its name says and keeps within the slots (`list_of_used`).
-/

namespace PatternVM

/-- A bookmark fits any stack with as many slots. -/
lemma Bookmark.Fits.mono {b : Bookmark} {m m' : MarkStack} (fits : b.Fits m) (le : m.slots.size ≤ m'.slots.size) :
    b.Fits m' where
  link_pos := fits.link_pos
  link_le := fits.link_le
  top_lt := Nat.lt_of_lt_of_le fits.top_lt le

namespace MarkStack

/-- What a client can make of a stack after a reset, together with the bookmarks that it has taken since. -/
inductive Used : MarkStack → List Bookmark → Prop where
  | reset (m : MarkStack) :
    Used m.reset []
  | push {m taken} (pos owner : Nat) :
    Used m taken →
    Used (m.push pos owner) taken
  | check {m taken} (cursor owner : Nat) :
    Used m taken →
    Used (m.check cursor owner).2 taken
  | bookmark {m taken} :
    Used m taken →
    Used m (m.bookmark :: taken)
  | restore {m taken b} :
    Used m taken →
    b ∈ taken →
    Used (m.restore b) taken

/-- Guarded `check`. -/
def check? (m : MarkStack) (cursor owner : Nat) : Option (Option Motion × MarkStack) := do
  let (_, _, slot) ← m.newestSlot?
  let rest ← m.drop? owner
  return (slot.mark.map fun mark => .since mark.pos cursor, rest)

variable {m : MarkStack} {taken : List Bookmark} {b : Bookmark} {cursor owner : Nat}

namespace Linked

/-- On a linked stack no guard of a check fails. -/
lemma check?_eq (lk : m.Linked) (cursor owner : Nat) : m.check? cursor owner = some (m.check cursor owner) := by
  simp only [check?, lk.newestSlot?_eq, lk.drop?_eq, Option.bind_eq_bind, Option.bind_some]
  rfl

/-- A check compares the cursor with the first position of the list. -/
lemma check_eq (lk : m.Linked) (cursor owner : Nat) :
    (m.check cursor owner).1 = m.toList.head?.map (Motion.since · cursor) := by
  rw [check_eq_since, lk.newest?_map_pos]

/-- Without a saved position a check answers nothing and changes nothing. -/
lemma check_of_nil (lk : m.Linked) (empty : m.toList = []) : m.check cursor owner = (none, m) := by
  have none : m.newest? = none := by
    rw [← Option.map_eq_none_iff, lk.newest?_map_pos, empty, List.head?_nil]
  rw [check, none, drop_of_none none]
  rfl

/-- A check answers how the cursor stands to the newest position, and takes that off. -/
lemma check_of_cons {pos : Nat} {rest : List Nat} (lk : m.Linked) (list : m.toList = pos :: rest) :
    (m.check cursor owner).1 = some (.since pos cursor) ∧ (m.check cursor owner).2.toList = rest := by
  refine ⟨?_, ?_⟩
  · rw [lk.check_eq, list]
    rfl
  · rw [check, lk.toList_drop, list]
    rfl

end Linked

/-! ## Any use -/

/-- However a stack is used, it stays linked, and every bookmark that has been taken still fits it. -/
lemma Used.linked (used : Used m taken) : m.Linked ∧ ∀ b ∈ taken, b.Fits m := by
  induction used with
  | reset m => exact ⟨.reset m, nofun⟩
  | @push m taken pos owner _ ih =>
    obtain ⟨lk, fits⟩ := ih
    exact ⟨lk.push pos owner, fun b mem => (fits b mem).mono (size_push lk.top_lt).1⟩
  | @check m taken cursor owner _ ih =>
    obtain ⟨lk, fits⟩ := ih
    exact ⟨lk.drop owner, fun b mem => (fits b mem).mono (Nat.le_of_eq size_drop.symm)⟩
  | bookmark _ ih =>
    obtain ⟨lk, fits⟩ := ih
    exact ⟨lk, List.forall_mem_cons.mpr ⟨lk.fits, fits⟩⟩
  | restore _ mem ih =>
    obtain ⟨lk, fits⟩ := ih
    exact ⟨lk.restore (fits _ mem), fun b mem => (fits b mem).mono (Nat.le_of_eq size_restore.symm)⟩

/-- However a client uses a stack, the stack is a list to it. Saving puts a position in front, whoever owns it. A check
finds nothing and changes nothing just if the list is empty; otherwise it says whether the cursor is still at the
first position, and leaves the rest of the list. All this, taking a bookmark, bringing one back and reading the list
keep within the slots, no link leads below slot 0, and the reading comes to an end. -/
theorem list_of_used (used : Used m taken) :
    (∀ pos owner,
      m.push? pos owner = some (m.push pos owner) ∧ (m.push pos owner).toList = pos :: m.toList) ∧
    (∀ cursor owner,
      m.check? cursor owner = some (m.check cursor owner) ∧
      ((m.check cursor owner).1 = none ↔ m.toList = []) ∧
      (m.toList = [] → (m.check cursor owner).2 = m) ∧
      ∀ pos rest, m.toList = pos :: rest →
        (m.check cursor owner).1 = some (if pos = cursor then .still else .moved) ∧
          (m.check cursor owner).2.toList = rest) ∧
    m.bookmark? = some m.bookmark ∧
    (∀ b ∈ taken, m.restore? b = some (m.restore b)) ∧
    m.Reads m.toList := by
  obtain ⟨lk, fits⟩ := used.linked
  refine ⟨fun pos owner => ⟨lk.push?_eq pos owner, lk.toList_push pos owner⟩, fun cursor owner => ?_,
    lk.bookmark?_eq, fun b mem => restore?_eq (fits b mem).top_lt, lk.reads⟩
  refine ⟨lk.check?_eq cursor owner, ?_, fun empty => ?_, fun pos rest list => lk.check_of_cons list⟩
  · rw [lk.check_eq, Option.map_eq_none_iff, List.head?_eq_none_iff]
  · rw [lk.check_of_nil empty]

/-- A bookmark of the list `[4]` is brought back when its slot has been freed and written over with another position.
The list that it leads to is checked on behalf of an owner that has saved nothing. -/
theorem list_of_used_stale :
    let stale := (empty.reset.push 4 9).bookmark
    ∃ m, Used m [stale] ∧ m.toList = [6] ∧ m.restore? stale = some m ∧
      (m.check 6 5).1 = some .still ∧ (m.check 6 5).2.toList = [] := by
  intro stale
  have written := (((Used.reset empty).push 4 9).bookmark.check 4 9).push 6 0
  have used : Used _ [stale] := written.restore (List.mem_singleton_self stale)
  have list : ((((empty.reset.push 4 9).check 4 9).2.push 6 0).restore stale).toList = [6] := by
    decide +kernel
  obtain ⟨_, checks, _, brings, _⟩ := list_of_used used
  obtain ⟨_, _, _, found⟩ := checks 6 5
  obtain ⟨still, rest⟩ := found 6 [] list
  refine ⟨_, used, list, ?_, still, rest⟩
  rw [brings stale (List.mem_singleton_self stale)]
  rfl

end MarkStack

end PatternVM
