import PatternVM.Proofs.Search.Expansion

/-!
# End flags

An end flag is short for an instruction of its own: a flagged instruction does what it does without the flag,
followed by a `textEnd`. So the flags of a program can be dissolved, and it accepts the same texts
(`Matcher.test_splitEnds`). The one exception is the empty literal, which can be taken unanchored only if it is flagged.

The flagged instruction knows where it has to finish, the other one has to try. What both can do is the same, since
`textEnd` lets an anchored thread pass at the end of the text only (`Program.performs_iff_unflagged`).
-/

namespace PatternVM

namespace Instr

/-- Whether an instruction has an end flag that is set. -/
def isFlagged : Instr → Bool
  | literal _ atEnd | byteClass _ atEnd | anyByte atEnd | textStart atEnd => atEnd
  | _ => false

/-- The instruction without its end flag. -/
def unflagged : Instr → Instr
  | literal bytes _ => literal bytes false
  | byteClass id _ => byteClass id false
  | anyByte _ => anyByte false
  | textStart _ => textStart false
  | instr => instr

/-- A flagged instruction without its flag, and behind it the instruction for the end of the text. -/
def splitEnd (instr : Instr) : List Instr :=
  if instr.isFlagged then [instr.unflagged, textEnd] else [instr]

end Instr

namespace Program

/-- The program with an instruction of its own for each end flag. -/
def splitEnds (p : Program) : Program := p.expand (fun _ => Instr.splitEnd) #[]

variable {p : Program} {text : Text} {instr : Instr} {c c' d : Place} {atEnd : Bool} {bytes : List UInt8}

/-- Bytes that have to finish the text are spelled by flagged instructions only. -/
lemma Spells.isFlagged_eq (spells : p.Spells instr atEnd bytes) : instr.isFlagged = atEnd := by
  cases spells <;> rfl

/-- Without its flag an instruction takes the same strings of bytes. -/
lemma spells_unflagged_iff :
    p.Spells instr.unflagged atEnd bytes ↔ atEnd = false ∧ ∃ flag, p.Spells instr flag bytes := by
  constructor
  · intro spells
    cases instr with
    | literal =>
      cases spells
      exact ⟨rfl, _, .literal⟩
    | byteClass =>
      cases spells with
      | byteClass found mem => exact ⟨rfl, _, .byteClass found mem⟩
    | anyByte =>
      cases spells
      exact ⟨rfl, _, .anyByte⟩
    | _ => cases spells
  · rintro ⟨rfl, flag, spells⟩
    cases spells with
    | literal => exact .literal
    | byteClass found mem => exact .byteClass found mem
    | anyByte => exact .anyByte

/-- A flagged instruction takes what it takes without the flag, if that finishes at the end of the text. -/
lemma takes_iff_unflagged (flagged : instr.isFlagged) (nonempty : instr ≠ .literal [] true) :
    p.Takes text instr c c' ↔ p.Takes text instr.unflagged c c' ∧ c'.thread.pos = text.size := by
  constructor
  · intro takes
    cases takes with
    | anchored spells stands ends =>
      have bare := spells_unflagged_iff.mpr ⟨rfl, _, spells⟩
      exact ⟨.anchored bare stands nofun, ends (spells.isFlagged_eq ▸ flagged)⟩
    | unanchored spells le stands ends empty =>
      have bare := spells_unflagged_iff.mpr ⟨rfl, _, spells⟩
      refine ⟨.unanchored bare le stands nofun fun none => ?_, ends (spells.isFlagged_eq ▸ flagged)⟩
      cases none
      cases spells
      exact absurd (congrArg (Instr.literal []) flagged) nonempty
  · rintro ⟨takes, ends⟩
    cases takes with
    | anchored bare stands _ =>
      obtain ⟨_, flag, spells⟩ := spells_unflagged_iff.mp bare
      exact .anchored spells stands fun _ => ends
    | unanchored bare le stands _ empty =>
      obtain ⟨rfl, flag, spells⟩ := spells_unflagged_iff.mp bare
      exact .unanchored spells le stands (fun _ => ends) fun none => absurd (empty none) Bool.false_ne_true

/-- A flagged instruction does what it does without the flag, if that finishes at the end of the text. -/
lemma performs_iff_unflagged (flagged : instr.isFlagged) (nonempty : instr ≠ .literal [] true) :
    p.Performs text instr c c' ↔ p.Performs text instr.unflagged c c' ∧ c'.thread.pos = text.size := by
  rw [Performs, Performs, takes_iff_unflagged flagged nonempty, or_and_right]
  refine or_congr_right ?_
  cases instr with
  | textStart atEnd =>
    obtain rfl : atEnd = true := flagged
    rw [Instr.unflagged, Text.passes_textStart_iff, Text.passes_textStart_iff]
    constructor
    · rintro ⟨⟨zero, empty⟩, rfl⟩
      exact ⟨⟨⟨zero, nofun⟩, rfl⟩, zero.trans (empty rfl).symm⟩
    · rintro ⟨⟨⟨zero, _⟩, rfl⟩, ends⟩
      exact ⟨⟨zero, fun _ => ends.symm.trans zero⟩, rfl⟩
  | literal =>
    refine iff_of_false nofun ?_
    rintro ⟨⟨⟩, _⟩
  | byteClass =>
    refine iff_of_false nofun ?_
    rintro ⟨⟨⟩, _⟩
  | anyByte =>
    refine iff_of_false nofun ?_
    rintro ⟨⟨⟩, _⟩
  | _ => cases flagged

/-- What an instruction that could be flagged does leaves the thread anchored. -/
lemma anchored_of_performs (flagged : instr.isFlagged) (performs : p.Performs text instr.unflagged c c') :
    c'.thread.unanchored = false := by
  rcases performs with takes | passes
  · cases takes <;> rfl
  · cases instr with
    | textStart =>
      rw [Instr.unflagged, Text.passes_textStart_iff] at passes
      rw [passes.2]
    | literal => cases passes
    | byteClass => cases passes
    | anyByte => cases passes
    | _ => cases flagged

/-- The end of the text is passed at the end, or from anywhere by a thread that is not anchored. -/
lemma performs_textEnd_iff : p.Performs text .textEnd c c' ↔
    (c.thread.unanchored ∨ c.thread.pos = text.size) ∧
      c' = ⟨⟨c.thread.pc + 1, text.size, false⟩, c.saved⟩ := by
  rw [Performs, Text.passes_textEnd_iff]
  refine or_iff_right (not_takes fun token atEnd consumes => ?_)
  cases consumes

/-- Flagged instructions are plain, with their flag and without it. -/
lemma isPlain_of_isFlagged (flagged : instr.isFlagged) : instr.isPlain ∧ instr.unflagged.isPlain := by
  cases instr <;> first | exact ⟨rfl, rfl⟩ | cases flagged

/-- A flagged instruction is replaced by the one without the flag and an instruction for the end of the text. -/
lemma replaces_splitEnd (flagged : instr.isFlagged) (nonempty : instr ≠ .literal [] true) :
    p.Replaces text instr.splitEnd instr := by
  obtain ⟨plain, plain'⟩ := isPlain_of_isFlagged flagged
  rw [Instr.splitEnd, if_pos flagged]
  refine ⟨List.cons_ne_nil _ _, plain, ?_, fun c d => ?_⟩
  · exact List.forall_mem_cons.mpr ⟨plain', List.forall_mem_singleton.mpr rfl⟩
  · rw [crosses_cons_iff]
    refine exists_congr fun next => ?_
    rw [crosses_singleton_iff, performs_textEnd_iff, performs_iff_unflagged flagged nonempty, and_assoc]
    refine and_congr_right fun performs => ?_
    have pc := performs.pc_eq (Instr.offset?_of_isPlain plain')
    have anchored := anchored_of_performs flagged performs
    obtain ⟨⟨pc', pos, unanchored⟩, saved⟩ := next
    obtain rfl : pc' = c.thread.pc + 1 := pc
    obtain rfl : unanchored = false := anchored
    rw [or_iff_right Bool.false_ne_true]
    refine and_congr_right fun ends => ?_
    obtain rfl : pos = text.size := ends
    rfl

/-- The two instructions for a flagged one do what that does, unless it is the empty literal. -/
lemma faithful_splitEnd (nonempty : .literal [] true ∉ p.code) :
    p.Faithful text (fun _ => Instr.splitEnd) #[] := by
  intro pc instr at_pc
  by_cases flagged : instr.isFlagged
  · have mem := Array.mem_of_getElem? at_pc
    exact .inr (replaces_splitEnd flagged fun empty => nonempty (empty ▸ mem))
  · exact .inl (if_neg flagged)

end Program

namespace Matcher

variable {m m' : Matcher} {budget budget' : Nat} {p : Program} {text : Text} {o o' : Outcome}
variable {found found' : Bool}

/-- A program that passes the check and has no flagged empty literal gets the same answer with an instruction of
its own for each end flag, if both get one. -/
theorem test_splitEnds (checked : p.check = .ok ()) (nonempty : .literal [] true ∉ p.code)
    (fit : p.JumpsFit fun _ => Instr.splitEnd) (test : m.test budget p text = some o)
    (test' : m'.test budget' p.splitEnds text = some o') (answer : o.verdict = .ok found)
    (answer' : o'.verdict = .ok found') : found = found' := by
  have closed := Program.closed_of_check checked
  have same : p.splitEnds.Accepts text ↔ p.Accepts text :=
    Program.accepts_expand (Program.faithful_splitEnd nonempty) fit closed
  exact answer_eq_of_accepts_iff same test test' answer answer'

/-- Bytes 120, then the flagged literal, with jumps across it in both directions. -/
theorem test_splitEnds_repetition :
    let p : Program :=
      ⟨#[.textStart false, .savePos, .branchFirst 3, .literal [97, 98] true, .accept, .byteClass 0 false,
          .jumpIfAdvanced (-5), .jump (-4)], #[ByteSet.empty.insert 120]⟩
    let m := Matcher.ofConfig ⟨0, .none⟩
    p.check = .ok () ∧ .literal [] true ∉ p.code ∧ (p.JumpsFit fun _ => Instr.splitEnd) ∧
      p.splitEnds.code =
        #[.textStart false, .savePos, .branchFirst 4, .literal [97, 98] false, .textEnd, .accept,
          .byteClass 0 false, .jumpIfAdvanced (-6), .jump (-5)] ∧
      ∃ o o', m.test 50 p #[120, 120, 97, 98] = some o ∧ m.test 50 p.splitEnds #[120, 120, 97, 98] = some o' ∧
        o.verdict = .ok true ∧ o'.verdict = .ok true := by
  intro p m
  have checked : p.check = .ok () := by decide +kernel
  have nonempty : .literal [] true ∉ p.code := by decide +kernel
  have fit : p.JumpsFit fun _ => Instr.splitEnd := by decide +kernel
  have matches_text : (m.test 50 p #[120, 120, 97, 98]).map Outcome.verdict = some (.ok true) := by
    decide +kernel
  have answers : (m.test 50 p.splitEnds #[120, 120, 97, 98]).map (·.verdict.isOk) = some true := by
    decide +kernel
  obtain ⟨o, test, answer⟩ := Option.map_eq_some_iff.mp matches_text
  obtain ⟨o', found, test', answer'⟩ := exists_answer_of_isOk answers
  obtain rfl : true = found := test_splitEnds checked nonempty fit test test' answer answer'
  exact ⟨checked, nonempty, fit, by decide +kernel, o, o', test, test', answer, answer'⟩

end Matcher

end PatternVM
