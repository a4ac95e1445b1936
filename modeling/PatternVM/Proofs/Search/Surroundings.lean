import PatternVM.Proofs.Search.Reachability

/-!
# Surroundings

A match is found anywhere. If a program never asks where the text begins or ends, what it matches it also matches
between any two other texts (`Matcher.test_surrounded`).

The steps that lead to an accepting place in the inner text are repeated in the whole one. Behind the first byte
that is taken, all positions are moved by the size of the text in front. Up to that byte the cursor is at position
0 in both texts, so a position that is saved before it does not move. Both are done by one map, `Text.shift`. It
is injective, and so a `jumpIfAdvanced` finds the cursor moved in both texts or in neither.
-/

namespace PatternVM

/-- Whether an instruction asks where the text begins or ends. -/
def Instr.asksForEdge : Instr → Bool
  | literal _ atEnd | byteClass _ atEnd | anyByte atEnd => atEnd
  | textStart _ | textEnd => true
  | _ => false

/-- No instruction asks where the text begins or ends. -/
def Program.Floating (p : Program) : Prop := ∀ instr ∈ p.code, ¬ instr.asksForEdge

/-- Whether a program asks for an edge of the text is decided instruction by instruction. -/
instance (p : Program) : Decidable p.Floating :=
  inferInstanceAs (Decidable (∀ instr ∈ p.code, ¬ instr.asksForEdge))

namespace Text

/-- A position after `n` bytes have been put in front of the text. The beginning stays the beginning. -/
def shift (n pos : Nat) : Nat := if pos = 0 then 0 else n + pos

variable {n pos q : Nat} {front text back : Text} {bytes : List UInt8}

/-- Any position but the beginning moves by the bytes in front. -/
lemma shift_of_pos (lt : 0 < pos) : shift n pos = n + pos := if_neg (Nat.ne_of_gt lt)

/-- No position moves by more than the bytes in front. -/
lemma shift_le : shift n pos ≤ n + pos := by
  rw [shift]
  split
  · exact Nat.zero_le _
  · exact Nat.le_refl _

/-- Different positions stay different. -/
lemma shift_injective (n : Nat) : Function.Injective (shift n) := by
  intro pos pos' same
  simp only [shift] at same
  split at same <;> split at same <;> omega

/-- What stands in a text stands in a larger one too, behind what has been put in front. -/
lemma prefix_drop_surrounded (stands : bytes <+: text.toList.drop q) :
    bytes <+: (front ++ text ++ back).toList.drop (front.size + q) := by
  have front_len : front.toList.length = front.size := Array.length_toList
  rw [Array.toList_append, Array.toList_append, List.append_assoc, ← front_len, List.drop_length_add_append]
  apply stands.trans
  rcases Nat.le_total q text.toList.length with le | ge
  · rw [List.drop_append_of_le_length le]
    exact List.prefix_append _ _
  · rw [List.drop_eq_nil_of_le ge]
    exact List.nil_prefix

end Text

namespace Place

/-- The place that corresponds to `c` after `n` bytes have been put in front of the text. -/
def shift (n : Nat) (c : Place) : Place :=
  ⟨{ c.thread with pos := Text.shift n c.thread.pos }, c.saved.map (Text.shift n)⟩

/-- At the beginning of the text a thread may still look for its token anywhere. -/
def Loose (c : Place) : Prop := c.thread.pos = 0 → c.thread.unanchored

variable {n : Nat} {c c' : Place} {offset : Int32}

/-- Jumps lead to the corresponding places. -/
lemma JumpsTo.shift (n : Nat) (leads : c.JumpsTo offset c') : (c.shift n).JumpsTo offset (c'.shift n) := by
  obtain ⟨target, offset_eq, rfl⟩ := leads
  exact ⟨target, offset_eq, rfl⟩

/-- A jump leaves the thread as free as it was. -/
lemma JumpsTo.loose (leads : c.JumpsTo offset c') (loose : c.Loose) : c'.Loose := by
  obtain ⟨target, _, rfl⟩ := leads
  exact loose

end Place

namespace Program

variable {p : Program} {front text back : Text} {instr : Instr} {c c' : Place} {atEnd : Bool}
variable {bytes : List UInt8}

/-- Of the instructions that spell bytes, those ask for an edge that have to finish the text. -/
lemma Spells.asksForEdge_eq (spells : p.Spells instr atEnd bytes) : instr.asksForEdge = atEnd := by
  cases spells <;> rfl

/-! ## Steps -/

/-- Bytes that are taken can be taken at the corresponding place of the larger text. -/
lemma Takes.shift (floats : ¬ instr.asksForEdge) (loose : c.Loose) (takes : p.Takes text instr c c') :
    p.Takes (front ++ text ++ back) instr (c.shift front.size) (c'.shift front.size) ∧ c'.Loose := by
  cases takes with
  | anchored spells stands ends =>
    rename_i atEnd bytes pc pos saved
    rw [spells.asksForEdge_eq] at floats
    -- a thread that is anchored has left the beginning
    have pos_pos : 0 < pos := Nat.pos_of_ne_zero fun zero => absurd (loose zero) Bool.false_ne_true
    have end_pos : 0 < pos + bytes.length := Nat.add_pos_left pos_pos _
    constructor
    · simp only [Place.shift, Text.shift_of_pos pos_pos, Text.shift_of_pos end_pos, ← Nat.add_assoc]
      exact .anchored spells (Text.prefix_drop_surrounded stands) fun flagged => absurd flagged floats
    · exact fun zero => absurd zero (Nat.ne_of_gt end_pos)
  | unanchored spells le stands ends empty =>
    rename_i atEnd bytes pc pos q saved
    rw [spells.asksForEdge_eq] at floats
    have nonempty : bytes ≠ [] := fun none => floats (empty none)
    have end_pos : 0 < q + bytes.length := Nat.add_pos_right _ (List.length_pos_iff.mpr nonempty)
    have le' : Text.shift front.size pos ≤ front.size + q := Nat.le_trans Text.shift_le (Nat.add_le_add_left le _)
    constructor
    · simp only [Place.shift, Text.shift_of_pos end_pos, ← Nat.add_assoc]
      exact .unanchored spells le' (Text.prefix_drop_surrounded stands)
        (fun flagged => absurd flagged floats) (fun none => absurd none nonempty)
    · exact fun zero => absurd zero (Nat.ne_of_gt end_pos)

/-- Instructions that take no bytes lead to the corresponding places. -/
lemma passes_shift {n : Nat} {text' : Text} (floats : ¬ instr.asksForEdge) (loose : c.Loose)
    (passes : text.Passes instr c c') : text'.Passes instr (c.shift n) (c'.shift n) ∧ c'.Loose := by
  cases passes with
  | textStart => exact absurd rfl floats
  | textEnd => exact absurd rfl floats
  | textEndUnanchored => exact absurd rfl floats
  | unanchor => exact ⟨.unanchor, fun _ => rfl⟩
  | savePos => exact ⟨.savePos, loose⟩
  | jump leads => exact ⟨.jump (leads.shift n), leads.loose loose⟩
  | branchNext => exact ⟨.branchNext, loose⟩
  | branchTarget leads => exact ⟨.branchTarget (leads.shift n), leads.loose loose⟩
  | jumpNext => exact ⟨.jumpNext, loose⟩
  | jumpTarget leads => exact ⟨.jumpTarget (leads.shift n), leads.loose loose⟩
  | still => exact ⟨.still, loose⟩
  | movedNext moved => exact ⟨.movedNext fun same => moved (Text.shift_injective n same), loose⟩
  | movedTarget moved leads =>
    exact ⟨.movedTarget (fun same => moved (Text.shift_injective n same)) (leads.shift n), leads.loose loose⟩

/-- A step in a text is a step in a larger text too, with its positions shifted. -/
lemma Step.shift (floating : p.Floating) (loose : c.Loose) (step : p.Step text c c') :
    p.Step (front ++ text ++ back) (c.shift front.size) (c'.shift front.size) ∧ c'.Loose := by
  cases step with
  | takes at_pc takes =>
    have floats := floating _ (Array.mem_of_getElem? at_pc)
    obtain ⟨takes', loose'⟩ := takes.shift floats loose
    exact ⟨.takes at_pc takes', loose'⟩
  | passes at_pc passes =>
    have floats := floating _ (Array.mem_of_getElem? at_pc)
    obtain ⟨passes', loose'⟩ := passes_shift floats loose passes
    exact ⟨.passes at_pc passes', loose'⟩

/-- From the corresponding place the program accepts the larger text too. -/
lemma AcceptsFrom.shift (floating : p.Floating) (loose : c.Loose) (accepts : p.AcceptsFrom text c) :
    p.AcceptsFrom (front ++ text ++ back) (c.shift front.size) := by
  obtain ⟨last, steps, at_pc⟩ := accepts
  induction steps using Relation.ReflTransGen.head_induction_on with
  | refl => exact ⟨last.shift front.size, .refl, at_pc⟩
  | head step _ ih =>
    obtain ⟨step', loose'⟩ : p.Step (front ++ text ++ back) _ _ ∧ _ := step.shift floating loose
    exact step'.acceptsFrom (ih loose')

/-- A program that never asks for an edge of the text accepts whatever surrounds a text that it accepts. -/
lemma Accepts.surrounded (floating : p.Floating) (accepts : p.Accepts text) (front back : Text) :
    p.Accepts (front ++ text ++ back) :=
  AcceptsFrom.shift floating (fun _ => rfl) accepts

end Program

namespace Matcher

variable {m m' : Matcher} {budget budget' : Nat} {p : Program} {front text back : Text} {o o' : Outcome}
variable {found : Bool}

/-- A program without instructions for the beginning and the end of the text and without end flags finds in a
larger text what it finds in a text, if it comes to an answer at all. -/
theorem test_surrounded (floating : p.Floating) (test : m.test budget p text = some o)
    (test' : m'.test budget' p (front ++ text ++ back) = some o') (answer : o.verdict = .ok true)
    (answer' : o'.verdict = .ok found) : found = true := by
  have accepts := (accepts_of_answer test answer).mp rfl
  have accepts' := accepts.surrounded floating front back
  exact (accepts_of_answer test' answer').mpr accepts'

/-- A repetition that may take nothing, and a byte 98 anywhere behind it. Nothing is taken by the first round, so it
is not gone through again. -/
theorem test_surrounded_repetition :
    let p : Program :=
      ⟨#[.savePos, .branchFirst 2, .byteClass 0 false, .jumpIfAdvanced (-3), .unanchor, .literal [98] false,
          .accept], #[ByteSet.empty.insert 97]⟩
    let m := Matcher.ofConfig ⟨0, .none⟩
    let m' := Matcher.ofConfig ⟨9, .trace⟩
    p.Floating ∧ ∃ o o', m.test 50 p #[97, 97, 99, 98] = some o ∧
      m'.test 50 p (#[99, 99] ++ #[97, 97, 99, 98] ++ #[97]) = some o' ∧ o.verdict = .ok true ∧
        o'.verdict = .ok true := by
  intro p m m'
  have floating : p.Floating := by decide +kernel
  have matches_text : (m.test 50 p #[97, 97, 99, 98]).map Outcome.verdict = some (.ok true) := by
    decide +kernel
  have answers : (m'.test 50 p (#[99, 99] ++ #[97, 97, 99, 98] ++ #[97])).map (·.verdict.isOk) = some true := by
    decide +kernel
  obtain ⟨o, test, answer⟩ := Option.map_eq_some_iff.mp matches_text
  obtain ⟨o', found, test', answer'⟩ := exists_answer_of_isOk answers
  obtain rfl : found = true := test_surrounded floating test test' answer answer'
  exact ⟨floating, o, o', test, test', answer, answer'⟩

end Matcher

end PatternVM
