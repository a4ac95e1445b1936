import PatternVM.Proofs.Search.Alternatives

/-!
# Steps

One step of a search that may guess, as a relation on places. `Takes` has the rules for instructions that
consume, `Passes` those for all others. The relation knows nothing of alternatives, verdicts and defects:
where a program is corrupt there may be no step, or one to a place behind the program.

Both kinds of rules are inverted instruction by instruction. Together this says that the places one step away
from a place are just its alternatives, as long as the cursor is within the text (`Program.step_iff_mem`),
where every step keeps it.
-/

namespace PatternVM

/-- The cursor of a place is within the text. -/
def Place.Within (text : Text) (c : Place) : Prop := c.thread.pos ≤ text.size

/-- A jump by `offset` leads from a place to another one, whether there is an instruction or not. -/
def Place.JumpsTo (c : Place) (offset : Int32) (c' : Place) : Prop :=
  ∃ target : Nat, (c.thread.pc : Int) + offset.toInt = target ∧ c' = c.goto target

/-- A jump does not leave the text. -/
lemma Place.JumpsTo.within {text : Text} {c c' : Place} {offset : Int32} (leads : c.JumpsTo offset c')
    (within : c.Within text) : c'.Within text := by
  obtain ⟨_, _, rfl⟩ := leads
  exact within

/-- The steps at instructions that take no bytes. -/
inductive Text.Passes (text : Text) : Instr → Place → Place → Prop where
  | textStart {pc unanchored saved} {atEnd : Bool} :
    (atEnd → text.size = 0) →
    Passes text (.textStart atEnd) ⟨⟨pc, 0, unanchored⟩, saved⟩ ⟨⟨pc + 1, 0, false⟩, saved⟩
  | textEnd {pc saved} :
    Passes text .textEnd ⟨⟨pc, text.size, false⟩, saved⟩ ⟨⟨pc + 1, text.size, false⟩, saved⟩
  | textEndUnanchored {pc pos saved} :
    Passes text .textEnd ⟨⟨pc, pos, true⟩, saved⟩ ⟨⟨pc + 1, text.size, false⟩, saved⟩
  | unanchor {pc pos unanchored saved} :
    Passes text .unanchor ⟨⟨pc, pos, unanchored⟩, saved⟩ ⟨⟨pc + 1, pos, true⟩, saved⟩
  | savePos {pc pos unanchored saved} :
    Passes text .savePos ⟨⟨pc, pos, unanchored⟩, saved⟩ ⟨⟨pc + 1, pos, unanchored⟩, pos :: saved⟩
  | jump {c c' offset} :
    c.JumpsTo offset c' →
    Passes text (.jump offset) c c'
  | branchNext {c offset} :
    Passes text (.branchFirst offset) c (c.goto (c.thread.pc + 1))
  | branchTarget {c c' offset} :
    c.JumpsTo offset c' →
    Passes text (.branchFirst offset) c c'
  | jumpNext {c offset} :
    Passes text (.jumpFirst offset) c (c.goto (c.thread.pc + 1))
  | jumpTarget {c c' offset} :
    c.JumpsTo offset c' →
    Passes text (.jumpFirst offset) c c'
  | still {t saved offset} :
    Passes text (.jumpIfAdvanced offset) ⟨t, t.pos :: saved⟩ (Place.goto ⟨t, saved⟩ (t.pc + 1))
  | movedNext {t q saved offset} :
    q ≠ t.pos →
    Passes text (.jumpIfAdvanced offset) ⟨t, q :: saved⟩ (Place.goto ⟨t, saved⟩ (t.pc + 1))
  | movedTarget {t q saved offset c'} :
    q ≠ t.pos →
    Place.JumpsTo ⟨t, saved⟩ offset c' →
    Passes text (.jumpIfAdvanced offset) ⟨t, q :: saved⟩ c'

namespace Program

/-- The strings of bytes that an instruction takes, and whether they have to finish at the end of the
text. -/
inductive Spells (p : Program) : Instr → Bool → List UInt8 → Prop where
  | literal {bytes atEnd} :
    Spells p (.literal bytes atEnd) atEnd bytes
  | byteClass {id set atEnd b} :
    p.class? id = some set →
    set.contains b →
    Spells p (.byteClass id atEnd) atEnd [b]
  | anyByte {atEnd b} :
    Spells p (.anyByte atEnd) atEnd [b]

/-- The steps at instructions that take bytes, anchored ones at the cursor and the others anywhere from there
on. An unanchored thread takes no bytes only if they have to finish at the end of the text. -/
inductive Takes (p : Program) (text : Text) : Instr → Place → Place → Prop where
  | anchored {instr atEnd bytes pc pos saved} :
    p.Spells instr atEnd bytes →
    bytes <+: text.toList.drop pos →
    (atEnd → pos + bytes.length = text.size) →
    Takes p text instr ⟨⟨pc, pos, false⟩, saved⟩ ⟨⟨pc + 1, pos + bytes.length, false⟩, saved⟩
  | unanchored {instr atEnd bytes pc pos q saved} :
    p.Spells instr atEnd bytes →
    pos ≤ q →
    bytes <+: text.toList.drop q →
    (atEnd → q + bytes.length = text.size) →
    (bytes = [] → atEnd) →
    Takes p text instr ⟨⟨pc, pos, true⟩, saved⟩ ⟨⟨pc + 1, q + bytes.length, false⟩, saved⟩

/-- One step of a search that may guess. -/
inductive Step (p : Program) (text : Text) : Place → Place → Prop where
  | takes {instr c c'} :
    p.instr? c.thread.pc = some instr →
    p.Takes text instr c c' →
    Step p text c c'
  | passes {instr c c'} :
    p.instr? c.thread.pc = some instr →
    text.Passes instr c c' →
    Step p text c c'

variable {p : Program} {text : Text} {instr : Instr} {token : Token} {atEnd atEnd' : Bool}
variable {bytes : List UInt8} {q : Nat} {c c' : Place} {places : List Place}

/-! ## Instructions that consume -/

/-- One byte stands at a position if it is the byte there. -/
lemma singleton_prefix_drop_iff {b : UInt8} : [b] <+: text.toList.drop q ↔ text[q]? = some b := by
  rw [← Text.occursAt_iff]
  simp [Text.occursAt]

/-- An instruction that spells bytes which stand somewhere consumes a token that occurs there. -/
lemma Spells.consumes (spells : p.Spells instr atEnd bytes) (stands : bytes <+: text.toList.drop q) :
    ∃ token, p.Consumes instr token atEnd ∧ token.width = bytes.length ∧ token.occursAt text q := by
  cases spells with
  | literal => exact ⟨_, .literal, rfl, Text.occursAt_iff.mpr stands⟩
  | byteClass found mem =>
    refine ⟨_, .byteClass found, rfl, ?_⟩
    rw [Token.occursAt, Text.holdsAt, singleton_prefix_drop_iff.mp stands]
    exact mem
  | anyByte =>
    refine ⟨_, .anyByte, rfl, ?_⟩
    obtain ⟨lt, _⟩ := Array.getElem?_eq_some_iff.mp (singleton_prefix_drop_iff.mp stands)
    exact decide_eq_true lt

/-- An instruction that consumes a token spells the bytes wherever that occurs. -/
lemma Consumes.spells (consumes : p.Consumes instr token atEnd) (occurs : token.occursAt text q) :
    ∃ bytes, p.Spells instr atEnd bytes ∧ bytes.length = token.width ∧ bytes <+: text.toList.drop q := by
  cases consumes with
  | literal => exact ⟨_, .literal, rfl, Text.occursAt_iff.mp occurs⟩
  | byteClass found =>
    rw [Token.occursAt, Text.holdsAt, Option.any_eq_true] at occurs
    obtain ⟨b, at_q, mem⟩ := occurs
    exact ⟨[b], .byteClass found mem, rfl, singleton_prefix_drop_iff.mpr at_q⟩
  | anyByte =>
    have at_q := Array.getElem?_eq_getElem (of_decide_eq_true occurs)
    exact ⟨_, .anyByte, rfl, singleton_prefix_drop_iff.mpr at_q⟩

/-- An instruction consumes one token only. -/
lemma Consumes.unique {token' : Token} (consumes : p.Consumes instr token atEnd)
    (consumes' : p.Consumes instr token' atEnd') : token' = token ∧ atEnd' = atEnd := by
  cases consumes with
  | literal =>
    cases consumes'
    exact ⟨rfl, rfl⟩
  | byteClass found =>
    cases consumes' with
    | byteClass found' =>
      rw [found] at found'
      cases found'
      exact ⟨rfl, rfl⟩
  | anyByte =>
    cases consumes'
    exact ⟨rfl, rfl⟩

/-- The steps at an instruction that consumes lead behind its token, wherever that may be taken. -/
lemma Consumes.takes_iff (consumes : p.Consumes instr token atEnd) :
    p.Takes text instr c c' ↔ c' ∈ (token.starts text atEnd c.thread).map (c.past token) := by
  rw [List.mem_map]
  constructor
  · intro takes
    cases takes with
    | anchored spells stands ends =>
      obtain ⟨token', consumes', width, occurs⟩ := spells.consumes stands
      obtain ⟨rfl, rfl⟩ := consumes.unique consumes'
      rw [← width] at ends
      refine ⟨_, Token.mem_starts_anchored.mpr ⟨rfl, Token.standsAt_iff.mpr ⟨occurs, ends⟩⟩, ?_⟩
      rw [Place.past, width]
    | unanchored spells le stands ends empty =>
      obtain ⟨token', consumes', width, occurs⟩ := spells.consumes stands
      obtain ⟨rfl, rfl⟩ := consumes.unique consumes'
      rw [← width] at ends
      refine ⟨_, Token.mem_starts_unanchored.mpr ⟨le, Token.standsAt_iff.mpr ⟨occurs, ends⟩, ?_⟩, ?_⟩
      · intro zero
        exact empty (List.eq_nil_of_length_eq_zero (width.symm.trans zero))
      · rw [Place.past, width]
  · rintro ⟨q, start, rfl⟩
    obtain ⟨⟨pc, pos, unanchored⟩, saved⟩ := c
    cases unanchored with
    | false =>
      obtain ⟨rfl, stands⟩ := Token.mem_starts_anchored.mp start
      obtain ⟨occurs, ends⟩ := Token.standsAt_iff.mp stands
      obtain ⟨bytes, spells, width, stands⟩ := consumes.spells occurs
      rw [Place.past, ← width]
      rw [← width] at ends
      exact .anchored spells stands ends
    | true =>
      obtain ⟨le, stands, empty⟩ := Token.mem_starts_unanchored.mp start
      obtain ⟨occurs, ends⟩ := Token.standsAt_iff.mp stands
      obtain ⟨bytes, spells, width, stands⟩ := consumes.spells occurs
      rw [Place.past, ← width]
      rw [← width] at ends empty
      exact .unanchored spells le stands ends fun none => empty (none ▸ List.length_nil)

/-- An instruction that consumes does not go on without taking bytes. -/
lemma Consumes.not_passes (consumes : p.Consumes instr token atEnd) : ¬ text.Passes instr c c' := by
  intro passes
  cases consumes <;> cases passes

/-- An instruction that does not consume takes no bytes. -/
lemma not_takes (none : ∀ token atEnd, ¬ p.Consumes instr token atEnd) : ¬ p.Takes text instr c c' := by
  intro takes
  cases takes with
  | anchored spells stands _ =>
    obtain ⟨token, consumes, _⟩ := spells.consumes stands
    exact none _ _ consumes
  | unanchored spells _ stands _ _ =>
    obtain ⟨token, consumes, _⟩ := spells.consumes stands
    exact none _ _ consumes

end Program

/-! ## Other instructions -/

namespace Text

variable {text : Text} {c c' : Place} {atEnd : Bool} {offset : Int32}

/-- The start of the text is passed at the beginning, which has to be the end as well if the flag is set. -/
lemma passes_textStart_iff : text.Passes (.textStart atEnd) c c' ↔
    (c.thread.pos = 0 ∧ (atEnd → text.size = 0)) ∧
      c' = ⟨⟨c.thread.pc + 1, c.thread.pos, false⟩, c.saved⟩ := by
  constructor
  · intro passes
    cases passes with
    | textStart empty => exact ⟨⟨rfl, empty⟩, rfl⟩
  · obtain ⟨⟨pc, pos, unanchored⟩, saved⟩ := c
    rintro ⟨⟨rfl, empty⟩, rfl⟩
    exact .textStart empty

/-- The end of the text is passed at the end, or from anywhere by a thread that is not anchored. -/
lemma passes_textEnd_iff : text.Passes .textEnd c c' ↔
    (c.thread.unanchored ∨ c.thread.pos = text.size) ∧
      c' = ⟨⟨c.thread.pc + 1, text.size, false⟩, c.saved⟩ := by
  constructor
  · intro passes
    cases passes with
    | textEnd => exact ⟨.inr rfl, rfl⟩
    | textEndUnanchored => exact ⟨.inl rfl, rfl⟩
  · obtain ⟨⟨pc, pos, unanchored⟩, saved⟩ := c
    rintro ⟨ends, rfl⟩
    cases unanchored with
    | true => exact .textEndUnanchored
    | false =>
      obtain rfl : pos = text.size := by simpa using ends
      exact .textEnd

/-- The next token may begin anywhere after that. -/
lemma passes_unanchor_iff : text.Passes .unanchor c c' ↔
    c' = ⟨⟨c.thread.pc + 1, c.thread.pos, true⟩, c.saved⟩ := by
  constructor
  · rintro ⟨⟩
    rfl
  · rintro rfl
    exact .unanchor

/-- The cursor is put on top of the saved positions. -/
lemma passes_savePos_iff : text.Passes .savePos c c' ↔
    c' = ⟨⟨c.thread.pc + 1, c.thread.pos, c.thread.unanchored⟩, c.thread.pos :: c.saved⟩ := by
  constructor
  · rintro ⟨⟩
    rfl
  · rintro rfl
    exact .savePos

/-- A jump goes to its target only. -/
lemma passes_jump_iff : text.Passes (.jump offset) c c' ↔ c.JumpsTo offset c' := by
  constructor
  · intro passes
    cases passes with
    | jump leads => exact leads
  · exact .jump

/-- A branch goes to the next instruction or to its target. -/
lemma passes_branchFirst_iff : text.Passes (.branchFirst offset) c c' ↔
    c' = c.goto (c.thread.pc + 1) ∨ c.JumpsTo offset c' := by
  constructor
  · intro passes
    cases passes with
    | branchNext => exact .inl rfl
    | branchTarget leads => exact .inr leads
  · rintro (rfl | leads)
    · exact .branchNext
    · exact .branchTarget leads

/-- So does a branch that prefers its target. -/
lemma passes_jumpFirst_iff : text.Passes (.jumpFirst offset) c c' ↔
    c' = c.goto (c.thread.pc + 1) ∨ c.JumpsTo offset c' := by
  constructor
  · intro passes
    cases passes with
    | jumpNext => exact .inl rfl
    | jumpTarget leads => exact .inr leads
  · rintro (rfl | leads)
    · exact .jumpNext
    · exact .jumpTarget leads

/-- If the cursor is where it was saved, a `jumpIfAdvanced` goes to the next instruction only. -/
lemma passes_still_iff {t : Thread} {saved : List Nat} :
    text.Passes (.jumpIfAdvanced offset) ⟨t, t.pos :: saved⟩ c' ↔
      c' = Place.goto ⟨t, saved⟩ (t.pc + 1) := by
  constructor
  · intro passes
    cases passes with
    | still => rfl
    | movedNext moved => exact absurd rfl moved
    | movedTarget moved _ => exact absurd rfl moved
  · rintro rfl
    exact .still

/-- If the cursor has left the saved position, a `jumpIfAdvanced` goes to the next instruction or to its target. -/
lemma passes_moved_iff {t : Thread} {q : Nat} {saved : List Nat} (moved : q ≠ t.pos) :
    text.Passes (.jumpIfAdvanced offset) ⟨t, q :: saved⟩ c' ↔
      c' = Place.goto ⟨t, saved⟩ (t.pc + 1) ∨ Place.JumpsTo ⟨t, saved⟩ offset c' := by
  constructor
  · intro passes
    cases passes with
    | still => exact .inl rfl
    | movedNext => exact .inl rfl
    | movedTarget _ leads => exact .inr leads
  · rintro (rfl | leads)
    · exact .movedNext moved
    · exact .movedTarget moved leads

end Text

namespace Program

variable {p : Program} {text : Text} {instr : Instr} {c c' : Place} {places : List Place}
variable {bytes : List UInt8} {q : Nat}

/-- An offset that resolves leads to the target and nowhere else. -/
lemma jumpsTo_iff {offset : Int32} {target : Nat} (h : p.target c.thread.pc offset = .ok target) :
    c.JumpsTo offset c' ↔ c' = c.goto target := by
  obtain ⟨leads, _⟩ := target_eq_ok_iff.mp h
  constructor
  · rintro ⟨t, leads', rfl⟩
    obtain rfl : t = target := by omega
    rfl
  · exact fun eq => ⟨target, leads, eq⟩

/-- A branch that prefers its target leads there and to the next instruction, if it opens both ways. -/
lemma mem_targetFirst {offset : Int32} (h : p.targetFirst c offset = .opened places) :
    c' ∈ places ↔ c' = c.goto (c.thread.pc + 1) ∨ c.JumpsTo offset c' := by
  obtain ⟨fault, refused⟩ | ⟨accepts, _⟩ | ⟨target, resolved, opened⟩ := p.targetFirst_cases c offset
  · rw [refused] at h
    cases h
  · rw [accepts] at h
    cases h
  · rw [opened] at h
    cases h
    rw [jumpsTo_iff resolved, List.mem_cons, List.mem_singleton, or_comm]

/-- So does a branch that prefers the next instruction. -/
lemma mem_nextFirst {offset : Int32} (h : p.nextFirst c offset = .opened places) :
    c' ∈ places ↔ c' = c.goto (c.thread.pc + 1) ∨ c.JumpsTo offset c' := by
  obtain ⟨fault, refused⟩ | ⟨target, resolved, ⟨accepts, _⟩ | opened⟩ := p.nextFirst_cases c offset
  · rw [refused] at h
    cases h
  · rw [accepts] at h
    cases h
  · rw [opened] at h
    cases h
    rw [jumpsTo_iff resolved, List.mem_cons, List.mem_singleton]

/-- The steps at an instruction that does not consume lead to its alternatives. -/
lemma passes_iff_mem (within : c.Within text) (at_pc : p.instr? c.thread.pc = some instr)
    (none : ∀ token atEnd, ¬ p.Consumes instr token atEnd) (h : p.alternatives text c = .opened places) :
    text.Passes instr c c' ↔ c' ∈ places := by
  simp only [alternatives, at_pc] at h
  cases instr with
  | literal bytes atEnd => exact absurd .literal (none _ _)
  | byteClass id atEnd =>
    cases found : p.class? id with
    | none =>
      simp only [found] at h
      cases h
    | some set => exact absurd (.byteClass found) (none _ _)
  | anyByte atEnd => exact absurd .anyByte (none _ _)
  | textStart atEnd =>
    cases h
    rw [Text.passes_textStart_iff]
    split
    · rename_i starts
      rw [List.mem_singleton, and_iff_right starts]
      rfl
    · rename_i fails
      constructor
      · rintro ⟨starts, _⟩
        exact absurd starts fails
      · intro mem
        cases mem
  | textEnd =>
    rw [Text.passes_textEnd_iff]
    obtain ⟨⟨pc, pos, unanchored⟩, saved⟩ := c
    cases unanchored with
    | true =>
      cases h
      rw [List.mem_singleton, and_iff_right (.inl rfl)]
    | false =>
      cases h
      split
      · rename_i ends
        -- at or behind the end of the text is at the end, since the cursor is within the text
        obtain rfl : pos = text.size := Nat.le_antisymm within ends
        rw [List.mem_singleton, and_iff_right (.inr rfl)]
        rfl
      · rename_i before
        constructor
        · rintro ⟨ends | ends, _⟩
          · cases ends
          · exact absurd (Nat.le_of_eq ends.symm) before
        · intro mem
          cases mem
  | unanchor =>
    cases h
    rw [Text.passes_unanchor_iff, List.mem_singleton]
    rfl
  | jump offset =>
    cases resolved : p.target c.thread.pc offset with
    | error defect =>
      simp only [resolved] at h
      cases h
    | ok target =>
      simp only [resolved] at h
      cases h
      rw [Text.passes_jump_iff, jumpsTo_iff resolved, List.mem_singleton]
  | savePos =>
    cases h
    rw [Text.passes_savePos_iff, List.mem_singleton]
    rfl
  | branchFirst offset => rw [Text.passes_branchFirst_iff, mem_nextFirst h]
  | jumpIfAdvanced offset =>
    obtain ⟨t, saved⟩ := c
    cases saved with
    | nil => cases h
    | cons q saved =>
      simp only at h
      split at h
      · rename_i still
        obtain rfl := still
        cases h
        rw [Text.passes_still_iff, List.mem_singleton]
        rfl
      · rename_i moved
        rw [Text.passes_moved_iff moved, mem_targetFirst h]
  | jumpFirst offset => rw [Text.passes_jumpFirst_iff, mem_targetFirst h]
  | accept => cases h

/-! ## Steps and alternatives -/

/-- A step takes bytes or goes on without. -/
lemma step_iff (at_pc : p.instr? c.thread.pc = some instr) :
    p.Step text c c' ↔ p.Takes text instr c c' ∨ text.Passes instr c c' := by
  constructor
  · intro step
    cases step with
    | takes at_pc' takes =>
      rw [at_pc, Option.some.injEq] at at_pc'
      exact .inl (at_pc' ▸ takes)
    | passes at_pc' passes =>
      rw [at_pc, Option.some.injEq] at at_pc'
      exact .inr (at_pc' ▸ passes)
  · rintro (takes | passes)
    · exact .takes at_pc takes
    · exact .passes at_pc passes

/-- The steps from a place lead to its alternatives. -/
theorem step_iff_mem (within : c.Within text) (h : p.alternatives text c = .opened places) :
    p.Step text c c' ↔ c' ∈ places := by
  cases at_pc : p.instr? c.thread.pc with
  | none =>
    simp only [alternatives, at_pc] at h
    cases h
  | some instr =>
    rw [step_iff at_pc]
    by_cases consuming : ∃ token atEnd, p.Consumes instr token atEnd
    · obtain ⟨token, atEnd, consumes⟩ := consuming
      rw [or_iff_left consumes.not_passes, consumes.takes_iff]
      rw [alternatives_of_consumes at_pc consumes] at h
      cases h
      rfl
    · have none token atEnd : ¬ p.Consumes instr token atEnd :=
        fun consumes => consuming ⟨token, atEnd, consumes⟩
      rw [or_iff_right (not_takes none), passes_iff_mem within at_pc none h]

/-- Bytes that stand at a position end within the text. If there are none, the position has to be within it. -/
lemma end_le_of_prefix_drop (stands : bytes <+: text.toList.drop q) (empty : bytes = [] → q ≤ text.size) :
    q + bytes.length ≤ text.size := by
  by_cases none : bytes = []
  · rw [none]
    exact empty none
  · exact Text.add_length_le_of_occursAt (Text.occursAt_iff.mpr stands) none

/-- A step does not leave the text. -/
lemma Step.within (step : p.Step text c c') (within : c.Within text) : c'.Within text := by
  cases step with
  | takes _ takes =>
    cases takes with
    | anchored _ stands _ => exact end_le_of_prefix_drop stands fun _ => within
    | unanchored _ _ stands ends empty =>
      refine end_le_of_prefix_drop stands fun none => ?_
      have := ends (empty none)
      omega
  | passes _ passes =>
    cases passes with
    | textStart => exact Nat.zero_le _
    | textEnd => exact Nat.le_refl _
    | textEndUnanchored => exact Nat.le_refl _
    | jump leads => exact leads.within within
    | branchTarget leads => exact leads.within within
    | jumpTarget leads => exact leads.within within
    | movedTarget _ leads => exact leads.within within
    | _ => exact within

end Program

end PatternVM
