import PatternVM.Proofs.Stack.Links

/-!
# Bookmarks keep their lists

A stack of saved positions is overwritten in place, and yet each live bookmark brings back the list that was
there when it was made. Two facts about a list are behind that, and `Owned` states them: no position of it
belongs to more than the present number of choice points, and those that belong to that very number lie at
the head of the newest bookmark or above it. So a slot is freed only above the heads of all live bookmarks,
while their lists lie below their heads.

`Client.ofUses` replays any history of saving, checking, entering and leaving choice points, `Lists.ofUses`
replays the same history on immutable lists, and `lists_ofUses` says that they agree.
-/

namespace PatternVM.MarkStack

/-- In the list that starts at a slot, no position has an owner above `depth`, and the positions of owner
`depth` lie at slot `floor` or above. -/
inductive Owned (m : MarkStack) (depth floor : Nat) : Nat → Prop
  | nil {i} :
    (m.slot i).mark = none →
    Owned m depth floor i
  | cons {i mark} :
    (m.slot i).mark = some mark →
    mark.owner ≤ depth →
    (mark.owner = depth → floor ≤ i) →
    Owned m depth floor (m.below i) →
    Owned m depth floor i

/-- The slot below which the lists of some bookmarks lie, the newest of which comes first. -/
def floor : List Bookmark → Nat
  | [] => 0
  | b :: _ => b.top

/-- A bookmark that can be restored while the `older` ones are live. -/
structure Safe (m : MarkStack) (b : Bookmark) (older : List Bookmark) : Prop where
  fits : b.Fits m
  floor_le : floor older ≤ b.top
  owned : m.Owned older.length (floor older) (b.top - b.link)

/-- Bookmarks, newest first, each of which can be restored once the newer ones are gone. -/
def Kept (m : MarkStack) : List Bookmark → Prop
  | [] => True
  | b :: older => m.Safe b older ∧ m.Kept older

/-- A linked stack that keeps the lists of some bookmarks. Its own head counts as the newest of them. -/
structure Serves (m : MarkStack) (bookmarks : List Bookmark) : Prop where
  linked : m.Linked
  kept : m.Kept (m.bookmark :: bookmarks)

variable {m m' : MarkStack} {depth depth' low low' i : Nat} {b : Bookmark} {bookmarks : List Bookmark}

/-- Positions of a list belong to fewer choice points than there will be after the next one. -/
lemma Owned.mono (h : m.Owned depth low i) (lt : depth < depth') : m.Owned depth' low' i := by
  induction h with
  | nil e => exact .nil e
  | cons e le _ _ ih => exact .cons e (by omega) (by omega) ih

/-- What is owned from a slot down depends on the slots from there down only. -/
lemma Owned.congr (h : m.Owned depth low i) (same : ∀ j ≤ i, m'.slot j = m.slot j) :
    m'.Owned depth low i := by
  induction h with
  | @nil i e => exact .nil (same i (Nat.le_refl i) ▸ e)
  | @cons i mark e le above _ ih =>
    have here := same i (Nat.le_refl i)
    have same_below : m'.below i = m.below i := by rw [MarkStack.below, MarkStack.below, here]
    refine .cons (here ▸ e) le above ?_
    rw [same_below]
    exact ih fun j le => same j (Nat.le_trans le (Nat.sub_le ..))

/-- What is written at the floor or above leaves all bookmarks and their lists as they are. -/
lemma Kept.frame (h : m.Kept bookmarks) (lk : m.Linked) (lk' : m'.Linked)
    (size_le : m.slots.size ≤ m'.slots.size) (same : ∀ j < floor bookmarks, m'.slot j = m.slot j) :
    m'.Kept bookmarks ∧ bookmarks.map m'.listAt = bookmarks.map m.listAt := by
  induction bookmarks with
  | nil => exact ⟨trivial, rfl⟩
  | cons b older ih =>
    obtain ⟨⟨⟨link_pos, link_le, top_lt⟩, floor_le, owned⟩, kept⟩ := h
    -- what lies below the floor of the older bookmarks lies below the head of this one
    obtain ⟨kept', lists⟩ := ih kept fun j lt => same j (Nat.lt_of_lt_of_le lt floor_le)
    have owned' := owned.congr fun j le => same j (show j < b.top by omega)
    refine ⟨⟨⟨⟨link_pos, link_le, Nat.lt_of_lt_of_le top_lt size_le⟩, floor_le, owned'⟩, kept'⟩, ?_⟩
    rw [List.map_cons, List.map_cons, lists, lk.listAt_congr lk' link_pos link_le same]

/-- All bookmarks that are kept fit the stack. -/
lemma Kept.fits (h : m.Kept bookmarks) (mem : b ∈ bookmarks) : b.Fits m := by
  induction bookmarks with
  | nil => cases mem
  | cons c older ih =>
    cases mem with
    | head => exact h.1.fits
    | tail _ mem => exact ih h.2 mem

namespace Serves

/-- A stack goes on serving its bookmarks when nothing below their floor is written and the new list lies
above it as well. -/
lemma of_frame (h : m.Serves bookmarks) (lk' : m'.Linked) (size_le : m.slots.size ≤ m'.slots.size)
    (same : ∀ j < floor bookmarks, m'.slot j = m.slot j) (floor_le : floor bookmarks ≤ m'.top)
    (owned : m'.Owned bookmarks.length (floor bookmarks) (m'.below m'.top)) :
    m'.Serves bookmarks ∧ bookmarks.map m'.listAt = bookmarks.map m.listAt := by
  obtain ⟨kept', lists⟩ := h.kept.2.frame h.linked lk' size_le same
  exact ⟨⟨lk', ⟨lk'.fits, floor_le, owned⟩, kept'⟩, lists⟩

/-- A stack that has been reset serves no bookmarks yet. -/
protected lemma reset (m : MarkStack) : m.reset.Serves [] where
  linked := .reset m
  kept := ⟨⟨(Linked.reset m).fits, Nat.zero_le _, .nil rfl⟩, trivial⟩

/-- Saving a position leaves the lists of all bookmarks as they are. -/
protected lemma push (h : m.Serves bookmarks) (pos : Nat) :
    (m.push pos bookmarks.length).Serves bookmarks ∧
      bookmarks.map (m.push pos bookmarks.length).listAt = bookmarks.map m.listAt := by
  have lk := h.linked
  obtain ⟨_, (floor_le : floor bookmarks ≤ m.top), owned⟩ := h.kept.1
  have same (j) (lt : j < m.top) : (m.push pos bookmarks.length).slot j = m.slot j := by
    rw [slot_push lk.top_lt, if_neg (by omega), if_neg (by omega)]
  have top : (m.push pos bookmarks.length).slot m.top =
      { m.slot m.top with mark := some ⟨pos, bookmarks.length⟩ } := by
    rw [slot_push lk.top_lt, if_pos rfl]
  have same_below : (m.push pos bookmarks.length).below m.top = m.below m.top := by
    rw [below, below, top]
  refine h.of_frame (lk.push _ _) (size_push lk.top_lt).1 (fun j lt => same j (by omega)) ?_ ?_
  · rw [top_push]
    exact Nat.le_succ_of_le floor_le
  · -- the new position lies at the old head, on top of the old list
    rw [below_top_push lk.top_lt]
    refine .cons (congrArg Slot.mark top) (Nat.le_refl _) (fun _ => floor_le) ?_
    rw [same_below]
    exact owned.congr fun j le => same j (Nat.lt_of_le_of_lt le (lk.below_lt lk.top_pos))

/-- Taking a position off leaves the lists of all bookmarks as they are. -/
protected lemma drop (h : m.Serves bookmarks) :
    (m.drop bookmarks.length).Serves bookmarks ∧
      bookmarks.map (m.drop bookmarks.length).listAt = bookmarks.map m.listAt := by
  cases e : m.newest? with
  | none =>
    rw [drop_of_none e]
    exact ⟨h, rfl⟩
  | some mark =>
    have lk := h.linked
    have lk' := lk.drop bookmarks.length
    obtain ⟨_, (floor_le : floor bookmarks ≤ m.top), owned⟩ := h.kept.1
    cases owned with
    | nil none => exact absurd (e.symm.trans none) (by simp)
    | @cons _ mark' some _ above rest =>
      obtain rfl : mark' = mark := Option.some.inj (some.symm.trans e)
      by_cases own : mark'.owner = bookmarks.length
      · -- the slot that becomes the head lies at the floor or above, and nothing is written
        rw [drop_of_owner_eq e own] at lk' ⊢
        exact h.of_frame lk' (Nat.le_refl _) (fun _ _ => rfl) (above own) (rest.congr fun _ _ => rfl)
      · -- only the link of the head is written, and the head lies above the whole list
        rw [drop_of_owner_ne e own] at lk' ⊢
        have fits := lk.fits_past e
        have same (j) (lt : j < m.top) := (slot_restore fits.top_lt (i := j)).trans
          (if_neg (Nat.ne_of_lt lt))
        refine h.of_frame lk' (Nat.le_of_eq size_restore.symm) (fun j lt => same j (by omega)) floor_le ?_
        rw [below_top_restore fits.top_lt, Nat.sub_add_eq]
        refine rest.congr fun j le => same j ?_
        exact Nat.lt_of_le_of_lt (Nat.le_trans le (Nat.sub_le ..)) (lk.below_lt lk.top_pos)

/-- A stack serves its own bookmark along with the others. -/
protected lemma bookmark (h : m.Serves bookmarks) : m.Serves (m.bookmark :: bookmarks) where
  linked := h.linked
  kept := ⟨⟨h.linked.fits, Nat.le_refl _, h.kept.1.owned.mono (Nat.lt_succ_self _)⟩, h.kept⟩

/-- Bringing the newest list back leaves the lists of the older bookmarks as they are. -/
protected lemma restore (h : m.Serves (b :: bookmarks)) :
    (m.restore b).Serves bookmarks ∧ bookmarks.map (m.restore b).listAt = bookmarks.map m.listAt := by
  have fits := h.kept.2.1.fits
  have lk' := h.linked.restore fits
  obtain ⟨kept', lists⟩ := h.kept.2.frame h.linked lk' (Nat.le_of_eq size_restore.symm) fun j lt =>
    (slot_restore fits.top_lt).trans (if_neg (Nat.ne_of_lt lt))
  refine ⟨⟨lk', ?_⟩, (List.cons.inj lists).2⟩
  rw [bookmark_restore fits.top_lt]
  exact kept'

/-- Bringing a list back makes it the list of the stack. -/
lemma toList_restore (h : m.Serves bookmarks) (mem : b ∈ bookmarks) : (m.restore b).toList = m.listAt b :=
  h.linked.toList_restore (h.kept.2.fits mem)

end Serves

/-! ## Histories -/

/-- One use that a search makes of its saved positions. -/
inductive Use
  /-- Saves a position. -/
  | save (pos : Nat)
  /-- Takes the newest position off and compares it with a cursor. -/
  | check (cursor : Nat)
  /-- Enters a choice point, which remembers the saved positions. -/
  | enter
  /-- Goes back to the newest choice point and leaves it. Without one nothing happens. -/
  | leave

/-- A stack together with the bookmarks of the live choice points, newest first. The owner that its
operations are given is always the number of these. -/
structure Client where
  marks : MarkStack
  bookmarks : List Bookmark

namespace Client

/-- The client after one more use. -/
def apply (c : Client) : Use → Client
  | .save pos => { c with marks := c.marks.push pos c.bookmarks.length }
  | .check cursor => { c with marks := (c.marks.check cursor c.bookmarks.length).2 }
  | .enter => { c with bookmarks := c.marks.bookmark :: c.bookmarks }
  | .leave =>
    match c.bookmarks with
    | [] => c
    | b :: older => ⟨c.marks.restore b, older⟩

/-- The client after a history of uses, which begins with a reset. -/
def ofUses (m : MarkStack) (uses : List Use) : Client := uses.foldl apply ⟨m.reset, []⟩

end Client

/-- The immutable lists that a client stands for: the present one, and those that were there when the live
choice points were entered, newest first. -/
structure Lists where
  current : List Nat
  held : List (List Nat)

namespace Lists

/-- The lists after one more use. -/
def apply (l : Lists) : Use → Lists
  | .save pos => { l with current := pos :: l.current }
  | .check _ => { l with current := l.current.tail }
  | .enter => { l with held := l.current :: l.held }
  | .leave =>
    match l.held with
    | [] => l
    | current :: held => ⟨current, held⟩

/-- The lists after a history of uses. -/
def ofUses (uses : List Use) : Lists := uses.foldl apply ⟨[], []⟩

end Lists

/-- The client's stack serves its bookmarks and holds the lists. -/
structure Client.Holds (c : Client) (l : Lists) : Prop where
  serves : c.marks.Serves c.bookmarks
  current : c.marks.toList = l.current
  held : c.bookmarks.map c.marks.listAt = l.held

/-- Each use does to the stack what it does to the lists. -/
lemma Client.Holds.apply {c : Client} {l : Lists} (h : c.Holds l) (use : Use) :
    (c.apply use).Holds (l.apply use) := by
  obtain ⟨serves, current, held⟩ := h
  cases use with
  | save pos =>
    obtain ⟨serves', lists⟩ := serves.push pos
    exact ⟨serves', (serves.linked.toList_push ..).trans (congrArg (pos :: ·) current), lists.trans held⟩
  | check cursor =>
    obtain ⟨serves', lists⟩ := serves.drop
    exact ⟨serves', (serves.linked.toList_drop _).trans (congrArg List.tail current), lists.trans held⟩
  | enter => exact ⟨serves.bookmark, current, congrArg₂ List.cons current held⟩
  | leave =>
    obtain ⟨marks, bookmarks⟩ := c
    obtain ⟨list, lists⟩ := l
    cases held
    cases bookmarks with
    | nil => exact ⟨serves, current, rfl⟩
    | cons b older =>
      obtain ⟨serves', lists⟩ := serves.restore
      exact ⟨serves', serves.toList_restore List.mem_cons_self, lists⟩

/-- So does a history of uses. -/
lemma Client.Holds.foldl {c : Client} {l : Lists} (h : c.Holds l) (uses : List Use) :
    (uses.foldl Client.apply c).Holds (uses.foldl Lists.apply l) := by
  -- each use begins where the one before has led both of them
  induction uses generalizing c l with
  | nil => exact h
  | cons use uses ih => exact ih (h.apply use)

/-- After a reset there is the empty list only. -/
lemma Client.Holds.reset (m : MarkStack) : Client.Holds ⟨m.reset, []⟩ ⟨[], []⟩ :=
  ⟨.reset m, chain_of_none rfl, rfl⟩

/-- After any history the stack holds the list that immutable lists would hold, every live bookmark would
bring back the list that was there when its choice point was entered, and a check answers as the list
does. -/
theorem lists_ofUses (m : MarkStack) (uses : List Use) :
    (Client.ofUses m uses).marks.toList = (Lists.ofUses uses).current ∧
      (Client.ofUses m uses).bookmarks.map (fun b => ((Client.ofUses m uses).marks.restore b).toList) =
        (Lists.ofUses uses).held ∧
      ∀ cursor,
        ((Client.ofUses m uses).marks.check cursor (Client.ofUses m uses).bookmarks.length).1 =
          (Lists.ofUses uses).current.head?.map fun saved => Motion.since saved cursor := by
  have holds : (Client.ofUses m uses).Holds (Lists.ofUses uses) := (Client.Holds.reset m).foldl uses
  obtain ⟨serves, current, held⟩ := holds
  refine ⟨current, ?_, fun cursor => ?_⟩
  · rw [← held]
    exact List.map_congr_left fun b mem => serves.toList_restore mem
  · rw [check, ← current, ← serves.linked.newest?_map_pos, Option.map_map]
    rfl

end PatternVM.MarkStack
