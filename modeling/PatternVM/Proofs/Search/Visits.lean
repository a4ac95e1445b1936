import PatternVM.Proofs.Program.Flow
import PatternVM.Proofs.Search.Agenda
import PatternVM.Proofs.Text.Occurrence

/-!
# Visits

What a visit to a place can come to, in one list. An instruction leads *onward* to places whose index is one
of its successors, whose cursor has not gone back and whose saved positions have changed as the instruction
asks. A visit opens at most two places: two of these, or one of these and the same place again with a later
cursor, if a token is looked for that may stand further on. If it gives a fault, the instruction has the
defect that is reported.

`Program.gives_visit` says that there are no other cases. Whatever holds of all places that a search gets to
is proved from it, and not from the instructions.
-/

namespace PatternVM

/-- What an instruction does to the saved positions. -/
def Instr.markUse (pos : Nat) : Instr → MarkUse
  | savePos => .save pos
  | jumpIfAdvanced _ => .drop
  | _ => .keep

/-- What a move does to the saved positions. -/
def Move.use : Move → MarkUse
  | .fail => .keep
  | .accept use | .corrupt use _ | .goto use _ | .fork use _ _ => use

/-! ## What becomes of the saved positions -/

/-- Taking a token leaves the saved positions as they are. -/
lemma Token.use_move (token : Token) (text : Text) (atEnd : Bool) (t : Thread) :
    (token.move text atEnd t).use = .keep := by
  obtain ⟨pc, pos, unanchored⟩ := t
  cases unanchored with
  | false =>
    cases atEnd with
    | false =>
      simp only [Token.move]
      split <;> rfl
    | true =>
      simp only [Token.move]
      split <;> rfl
  | true =>
    cases atEnd with
    | false =>
      simp only [Token.move]
      cases token.find? text pos <;> rfl
    | true =>
      simp only [Token.move]
      split <;> rfl

namespace Program

variable (p : Program) (text : Text) (t : Thread)

/-- However a jump ends, it does to the saved positions what it was asked to. -/
lemma use_moveToTarget (offset : Int32) (use : MarkUse) : (p.moveToTarget t offset use).use = use := by
  rw [moveToTarget]
  split
  · rfl
  · split <;> rfl

/-- A branch that goes on to the next instruction leaves the saved positions as they are. -/
lemma use_moveToNext (offset : Int32) : (p.moveToNext t offset).use = .keep := by
  rw [moveToNext]
  split
  · rfl
  · split <;> rfl

/-- A move does to the saved positions what its instruction does, or it leaves them as they are. -/
lemma use_move (newest : Option Nat) (instr : Instr) :
    (p.move text t newest instr).use = .keep ∨ (p.move text t newest instr).use = instr.markUse t.pos := by
  cases instr with
  | literal bytes atEnd => exact .inl (Token.use_move ..)
  | byteClass id atEnd =>
    simp only [move]
    cases p.class? id with
    | none => exact .inl rfl
    | some set => exact .inl (Token.use_move ..)
  | anyByte atEnd => exact .inl (Token.use_move ..)
  | textStart atEnd =>
    simp only [move]
    split <;> exact .inl rfl
  | textEnd =>
    simp only [move]
    split
    · exact .inl rfl
    · split <;> exact .inl rfl
  | unanchor => exact .inl rfl
  | jump offset =>
    simp only [move]
    cases p.target t.pc offset with
    | error defect => exact .inl rfl
    | ok target => exact .inl rfl
  | savePos => exact .inr rfl
  | branchFirst offset => exact .inl (p.use_moveToNext t offset)
  | jumpIfAdvanced offset =>
    simp only [move]
    cases newest.map (Motion.since · t.pos) with
    | none => exact .inl rfl
    | some motion =>
      cases motion with
      | still => exact .inr rfl
      | moved => exact .inr (p.use_moveToTarget t offset .drop)
  | jumpFirst offset => exact .inl (p.use_moveToTarget t offset .keep)
  | accept => exact .inl rfl

end Program

/-! ## What a visit can come to -/

namespace Program

/-- An instruction leads from a place to another one. -/
structure Onward (p : Program) (text : Text) (instr : Instr) (c c' : Place) : Prop where
  pc_mem : c'.thread.pc ∈ p.successors c.thread.pc instr
  pos_le : c.thread.pos ≤ c'.thread.pos
  within : c'.thread.pos ≤ text.size
  saved : c'.saved = (instr.markUse c.thread.pos).on c.saved

/-- The defects of an instruction that show up when it is performed at a place. -/
inductive Breaks (p : Program) (c : Place) : Instr → Defect → Prop where
  | noClass {id atEnd} :
    p.class? id = none →
    Breaks p c (.byteClass id atEnd) (.classOutOfRange id)
  | noTarget {instr offset defect} :
    instr.offset? = some offset →
    p.target c.thread.pc offset = .error defect →
    Breaks p c instr defect
  | noAlternative {instr} :
    instr.fallsThrough →
    p.instr? (c.thread.pc + 1) = none →
    Breaks p c instr .alternativePastEnd
  | noMark {offset} :
    c.saved = [] →
    Breaks p c (.jumpIfAdvanced offset) .nothingSaved

/-- What a visit to a place can come to. -/
inductive Gives (p : Program) (text : Text) (c : Place) : Visit → Prop where
  | pastEnd :
    p.instr? c.thread.pc = none →
    Gives p text c (.settled (.error (.corrupt c.thread.pc .pastEnd)))
  | broken {instr defect} :
    p.instr? c.thread.pc = some instr →
    p.Breaks c instr defect →
    Gives p text c (.settled (.error (.corrupt c.thread.pc defect)))
  | accepted :
    Gives p text c (.settled (.ok true))
  | failed :
    Gives p text c (.opened [])
  | moved {instr c'} :
    p.instr? c.thread.pc = some instr →
    p.Onward text instr c c' →
    Gives p text c (.opened [c'])
  | forked {instr first second} :
    p.instr? c.thread.pc = some instr →
    p.Onward text instr c first →
    p.Onward text instr c second →
    second.thread.pc < p.size →
    Gives p text c (.opened [first, second])
  | scanned {instr first q} :
    p.instr? c.thread.pc = some instr →
    p.Onward text instr c first →
    c.thread.pos < q →
    q ≤ text.size →
    Gives p text c (.opened [first, ⟨⟨c.thread.pc, q, true⟩, c.saved⟩])

variable {p : Program} {text : Text} {c : Place} {instr : Instr} {dest : Nat} {offset : Int32}

/-! ## Tokens -/

/-- An instruction that takes a token leads behind it, and no token reaches beyond the text. -/
lemma Gives.token (at_pc : p.instr? c.thread.pc = some instr) (falls : instr.fallsThrough)
    (keeps : instr.markUse c.thread.pos = .keep) (within : c.thread.pos ≤ text.size) (token : Token)
    (atEnd : Bool) : p.Gives text c ((token.move text atEnd c.thread).visit c) := by
  have onward {pos : Nat} (le : c.thread.pos ≤ pos) (within : pos ≤ text.size) :
      p.Onward text instr c ⟨⟨c.thread.pc + 1, pos, false⟩, c.saved⟩ :=
    ⟨next_mem_successors falls, le, within, by rw [keeps]; rfl⟩
  obtain ⟨⟨pc, pos, unanchored⟩, saved⟩ := c
  cases unanchored with
  | false =>
    cases atEnd with
    | false =>
      simp only [Token.move]
      split
      · rename_i occurs
        refine .moved at_pc (onward (Nat.le_add_right ..) ?_)
        rcases Nat.eq_zero_or_pos token.width with zero | width_pos
        · rw [zero]
          exact within
        · exact Token.add_width_le occurs width_pos
      · exact .failed
    | true =>
      simp only [Token.move]
      split
      · exact .moved at_pc (onward within (Nat.le_refl _))
      · exact .failed
  | true =>
    cases atEnd with
    | false =>
      simp only [Token.move]
      cases found : token.find? text pos with
      | none => exact .failed
      | some q =>
        obtain ⟨width_pos, first⟩ := Token.find?_eq_some found
        have room := Token.add_width_le first.holds width_pos
        have le := first.le
        -- the token takes up a byte at least, so there is text behind its first byte
        refine .scanned at_pc (onward ?_ room) ?_ ?_
        · exact Nat.le_add_right_of_le le
        · exact Nat.lt_succ_of_le le
        · exact Nat.le_trans (Nat.add_le_add_left width_pos q) room
    | true =>
      simp only [Token.move]
      split
      · exact .moved at_pc (onward within (Nat.le_refl _))
      · exact .failed

/-! ## Branches -/

/-- An instruction that falls through leads onward to the next one. -/
lemma Onward.next {use : MarkUse} (falls : instr.fallsThrough) (within : c.thread.pos ≤ text.size)
    (uses : instr.markUse c.thread.pos = use) (unanchored : Bool) :
    p.Onward text instr c ⟨⟨c.thread.pc + 1, c.thread.pos, unanchored⟩, use.on c.saved⟩ :=
  ⟨next_mem_successors falls, Nat.le_refl _, within, by rw [uses]⟩

/-- A jump that resolves leads onward to its target. -/
lemma Onward.target {use : MarkUse} (jumps : instr.offset? = some offset)
    (resolved : p.target c.thread.pc offset = .ok dest) (within : c.thread.pos ≤ text.size)
    (uses : instr.markUse c.thread.pos = use) (unanchored : Bool) :
    p.Onward text instr c ⟨⟨dest, c.thread.pos, unanchored⟩, use.on c.saved⟩ :=
  ⟨target_mem_successors jumps resolved, Nat.le_refl _, within, by rw [uses]⟩

/-- A jump with the next instruction as the alternative comes to one of the cases. -/
lemma Gives.moveToTarget {use : MarkUse} (at_pc : p.instr? c.thread.pc = some instr)
    (jumps : instr.offset? = some offset) (falls : instr.fallsThrough)
    (uses : instr.markUse c.thread.pos = use) (within : c.thread.pos ≤ text.size) :
    p.Gives text c ((p.moveToTarget c.thread offset use).visit c) := by
  rw [Program.moveToTarget]
  cases resolved : p.target c.thread.pc offset with
  | error defect => exact .broken at_pc (.noTarget jumps resolved)
  | ok target =>
    cases next : p.instr? (c.thread.pc + 1) with
    | none => exact .broken at_pc (.noAlternative falls next)
    | some other =>
      have first := Onward.target jumps resolved within uses c.thread.unanchored
      have second := Onward.next (p := p) falls within uses c.thread.unanchored
      have forked : p.Gives text c (.opened _) := .forked at_pc first second (lt_size_of_instr? next)
      cases other with
      | accept => exact .accepted
      | _ => exact forked

/-- A branch to the next instruction comes to one of the cases. -/
lemma Gives.moveToNext (at_pc : p.instr? c.thread.pc = some instr) (jumps : instr.offset? = some offset)
    (falls : instr.fallsThrough) (uses : instr.markUse c.thread.pos = .keep)
    (within : c.thread.pos ≤ text.size) : p.Gives text c ((p.moveToNext c.thread offset).visit c) := by
  rw [Program.moveToNext]
  cases resolved : p.target c.thread.pc offset with
  | error defect => exact .broken at_pc (.noTarget jumps resolved)
  | ok target =>
    have first := Onward.next (p := p) falls within uses c.thread.unanchored
    have second := Onward.target jumps resolved within uses c.thread.unanchored
    have forked : p.Gives text c (.opened _) :=
      .forked at_pc first second (target_eq_ok_iff.mp resolved).2
    simp only
    cases p.instr? target with
    | none => exact forked
    | some other =>
      cases other with
      | accept => exact .accepted
      | _ => exact forked

/-! ## All instructions -/

/-- A visit to a place within the text comes to one of the cases listed. -/
theorem gives_visit (within : c.thread.pos ≤ text.size) : p.Gives text c (p.visit text c) := by
  rw [visit, visitBy]
  cases at_pc : p.instr? c.thread.pc with
  | none => exact .pastEnd at_pc
  | some instr =>
    simp only
    cases instr with
    | literal bytes atEnd => exact .token at_pc rfl rfl within _ _
    | byteClass id atEnd =>
      simp only [move]
      cases found : p.class? id with
      | none => exact .broken at_pc (.noClass found)
      | some set => exact .token at_pc rfl rfl within _ _
    | anyByte atEnd => exact .token at_pc rfl rfl within _ _
    | textStart atEnd =>
      simp only [move]
      split
      · exact .moved at_pc (.next rfl within rfl false)
      · exact .failed
    | textEnd =>
      simp only [move]
      split
      · exact .moved at_pc ⟨next_mem_successors rfl, within, Nat.le_refl _, rfl⟩
      · split
        · exact .moved at_pc (.next rfl within rfl c.thread.unanchored)
        · exact .failed
    | unanchor => exact .moved at_pc (.next rfl within rfl true)
    | jump offset =>
      simp only [move]
      cases resolved : p.target c.thread.pc offset with
      | error defect => exact .broken at_pc (.noTarget rfl resolved)
      | ok target => exact .moved at_pc (.target rfl resolved within rfl c.thread.unanchored)
    | savePos => exact .moved at_pc (.next rfl within rfl c.thread.unanchored)
    | branchFirst offset => exact .moveToNext at_pc rfl rfl rfl within
    | jumpIfAdvanced offset =>
      simp only [move]
      cases newest : c.saved with
      | nil => exact .broken at_pc (.noMark newest)
      | cons q older =>
        simp only [List.head?_cons, Option.map_some]
        cases Motion.since q c.thread.pos with
        | still => exact .moved at_pc (.next rfl within rfl c.thread.unanchored)
        | moved => exact .moveToTarget at_pc rfl rfl rfl within
    | jumpFirst offset => exact .moveToTarget at_pc rfl rfl rfl within
    | accept => exact .accepted

/-- A place that a visit opens lies onward, or it is the visited one with a later cursor. -/
lemma onward_of_opened {places : List Place} {c' : Place} (within : c.thread.pos ≤ text.size)
    (opened : p.visit text c = .opened places) (mem : c' ∈ places) :
    ∃ instr, p.instr? c.thread.pc = some instr ∧
      (p.Onward text instr c c' ∨
        ∃ q, c.thread.pos < q ∧ q ≤ text.size ∧ c' = ⟨⟨c.thread.pc, q, true⟩, c.saved⟩) := by
  have gives := gives_visit (p := p) within
  rw [opened] at gives
  cases gives with
  | failed => cases mem
  | moved at_pc onward =>
    obtain rfl := List.mem_singleton.mp mem
    exact ⟨_, at_pc, .inl onward⟩
  | forked at_pc onward onward' _ =>
    refine ⟨_, at_pc, .inl ?_⟩
    obtain rfl | mem := List.mem_cons.mp mem
    · exact onward
    · obtain rfl := List.mem_singleton.mp mem
      exact onward'
  | scanned at_pc onward lt le =>
    refine ⟨_, at_pc, ?_⟩
    obtain rfl | mem := List.mem_cons.mp mem
    · exact .inl onward
    · exact .inr ⟨_, lt, le, List.mem_singleton.mp mem⟩

end Program

end PatternVM
