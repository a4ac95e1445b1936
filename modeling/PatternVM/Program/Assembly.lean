import PatternVM.Program.Basic

/-!
# Assembling programs

A program is assembled directive by directive. The index of an emitted instruction is the program's size
before it, so a forward jump is emitted with some offset and patched once its target is known.
-/

namespace PatternVM.Program

/-- Appends an instruction. -/
def emit (p : Program) (instr : Instr) : Program := { p with code := p.code.push instr }

/-- Appends a class to the class table. -/
def addClass (p : Program) (set : ByteSet) : Program := { p with classes := p.classes.push set }

/-- The instruction at `pc` with its jump led to `target`, if there is one that jumps. -/
def patched? (p : Program) (pc target : Nat) : Option Instr :=
  (p.instr? pc).bind (Instr.withOffset? (offsetTo pc target))

/-- Leads the jump at `pc` to `target`. A program without a jump at `pc` stays as it is. -/
def patch (p : Program) (pc target : Nat) : Program :=
  match p.patched? pc target with
  | some instr => { p with code := p.code.setIfInBounds pc instr }
  | none => p

/-- One step in the making of a program. -/
inductive Directive
  /-- Appends an instruction. -/
  | emit (instr : Instr)
  /-- Appends a class. -/
  | addClass (set : ByteSet)
  /-- Appends a `jumpIfAdvanced` that leads to `target`. -/
  | loopTo (target : Nat)
  /-- Leads the jump at `pc` to `target`. -/
  | patch (pc target : Nat)

/-- What a directive answers. -/
inductive Answer
  /-- The index of the instruction or class that was appended. -/
  | index (n : Nat)
  /-- Whether there was a jump to patch. -/
  | patched (found : Bool)
  deriving DecidableEq

/-- The program after one more directive. -/
def apply (p : Program) : Directive → Program
  | .emit instr => p.emit instr
  | .addClass set => p.addClass set
  | .loopTo target => p.emit (.jumpIfAdvanced (offsetTo p.size target))
  | .patch pc target => p.patch pc target

/-- What a directive answers when it is given to `p`. The number of a class is answered in full; it takes no more than
32 bits as long as there are fewer than `2 ^ 32` classes. -/
def answer (p : Program) : Directive → Answer
  | .emit _ | .loopTo _ => .index p.size
  | .addClass _ => .index p.classes.size
  | .patch pc target => .patched (p.patched? pc target).isSome

/-- The program that a sequence of directives makes out of `p`. -/
def assemble (p : Program) (directives : List Directive) : Program := directives.foldl apply p

end PatternVM.Program
