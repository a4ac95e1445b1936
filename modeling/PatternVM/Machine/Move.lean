import PatternVM.Machine.Token
import PatternVM.Program.Basic
import PatternVM.Stack.Choice

/-!
# Moves

What one instruction does to a thread. A move depends on the program, the text, the thread and the newest
saved position only; how alternatives and saved positions are stored is no concern of it.
-/

namespace PatternVM

/-- What a move does to the saved positions. -/
inductive MarkUse
  | keep
  /-- Saves a position. -/
  | save (pos : Nat)
  /-- Takes the newest position off. -/
  | drop
  deriving DecidableEq

/-- What one instruction does to a thread. A move that ends the search says too what becomes of the saved positions: an
instruction may have taken one off before it is found that the text matches, or that the program has a defect. -/
inductive Move
  /-- The thread ends, and the newest alternative is taken up. -/
  | fail
  /-- The text matches. -/
  | accept (use : MarkUse)
  /-- The program has a defect at the thread's instruction. -/
  | corrupt (use : MarkUse) (defect : Defect)
  /-- The thread goes on as `next`. -/
  | goto (use : MarkUse) (next : Thread)
  /-- The thread goes on as `next`, and `alternative` is put off. -/
  | fork (use : MarkUse) (next alternative : Thread)
  deriving DecidableEq

/-- Matches a token. An anchored thread needs the token at the cursor. One that is not anchored takes the
first occurrence from the cursor on, with all later ones as the alternative. If the token has to finish at
the end of the text, only one place is left for it, which must not lie before the cursor. -/
def Token.move (token : Token) (text : Text) (atEnd : Bool) (t : Thread) : Move :=
  match t.unanchored, atEnd with
  | false, false =>
    if token.occursAt text t.pos then
      .goto .keep ⟨t.pc + 1, t.pos + token.width, false⟩
    else
      .fail
  | false, true =>
    if t.pos + token.width = text.size ∧ token.occursAt text t.pos then
      .goto .keep ⟨t.pc + 1, text.size, false⟩
    else
      .fail
  | true, false =>
    match token.find? text t.pos with
    | some q => .fork .keep ⟨t.pc + 1, q + token.width, false⟩ ⟨t.pc, q + 1, true⟩
    | none => .fail
  | true, true =>
    if t.pos + token.width ≤ text.size ∧ token.occursAt text (text.size - token.width) then
      .goto .keep ⟨t.pc + 1, text.size, false⟩
    else
      .fail

namespace Program

/-- Goes to the target of a jump, with the next instruction as the alternative. If the alternative is to
accept, the text matches already. -/
def moveToTarget (p : Program) (t : Thread) (offset : Int32) (use : MarkUse) : Move :=
  match p.target t.pc offset with
  | .error defect => .corrupt use defect
  | .ok target =>
    match p.instr? (t.pc + 1) with
    | none => .corrupt use .alternativePastEnd
    | some .accept => .accept use
    | some _ => .fork use { t with pc := target } { t with pc := t.pc + 1 }

/-- Goes to the next instruction, with the target of a jump as the alternative. If the alternative is to
accept, the text matches already. -/
def moveToNext (p : Program) (t : Thread) (offset : Int32) : Move :=
  match p.target t.pc offset with
  | .error defect => .corrupt .keep defect
  | .ok target =>
    match p.instr? target with
    | some .accept => .accept .keep
    | _ => .fork .keep { t with pc := t.pc + 1 } { t with pc := target }

/-- What an instruction does to a thread, where `newest` is the newest saved position. -/
def move (p : Program) (text : Text) (t : Thread) (newest : Option Nat) : Instr → Move
  | .literal bytes atEnd => (Token.literal bytes).move text atEnd t
  | .byteClass id atEnd =>
    match p.class? id with
    | some set => (Token.oneOf set).move text atEnd t
    | none => .corrupt .keep (.classOutOfRange id)
  | .anyByte atEnd => Token.anyByte.move text atEnd t
  | .textStart atEnd =>
    if t.pos = 0 ∧ (atEnd → text.size = 0) then
      .goto .keep { t with pc := t.pc + 1, unanchored := false }
    else
      .fail
  | .textEnd =>
    if t.unanchored then
      .goto .keep ⟨t.pc + 1, text.size, false⟩
    else if text.size ≤ t.pos then
      .goto .keep { t with pc := t.pc + 1 }
    else
      .fail
  | .unanchor => .goto .keep { t with pc := t.pc + 1, unanchored := true }
  | .jump offset =>
    match p.target t.pc offset with
    | .ok target => .goto .keep { t with pc := target }
    | .error defect => .corrupt .keep defect
  | .savePos => .goto (.save t.pos) { t with pc := t.pc + 1 }
  | .branchFirst offset => p.moveToNext t offset
  | .jumpIfAdvanced offset =>
    match newest.map (Motion.since · t.pos) with
    | none => .corrupt .keep .nothingSaved
    | some .still => .goto .drop { t with pc := t.pc + 1 }
    | some .moved => p.moveToTarget t offset .drop
  | .jumpFirst offset => p.moveToTarget t offset .keep
  | .accept => .accept .keep

end Program

end PatternVM
