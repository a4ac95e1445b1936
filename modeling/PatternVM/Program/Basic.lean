import PatternVM.ByteSet.Basic
import PatternVM.Fault
import PatternVM.Instr

/-!
# Programs

A program is a sequence of instructions and a table of byte classes. Nothing is promised about it: jumps
may lead outside it and classes may be missing. `check` finds such defects up front, and `build` lets
through only programs that pass.
-/

namespace PatternVM

/-- A compiled pattern. -/
structure Program where
  code : Array Instr
  classes : Array ByteSet
  deriving DecidableEq

namespace Program

/-- The program without instructions and classes. -/
def empty : Program := ⟨#[], #[]⟩

/-- The number of instructions. -/
def size (p : Program) : Nat := p.code.size

/-- Whether there is no instruction. -/
def isEmpty (p : Program) : Bool := p.code.isEmpty

/-- The instruction at index `pc`. -/
def instr? (p : Program) (pc : Nat) : Option Instr := p.code[pc]?

/-- Class number `id`. -/
def class? (p : Program) (id : Nat) : Option ByteSet := p.classes[id]?

/-- The index that `offset` leads to from `pc`, if there is an instruction. -/
def target (p : Program) (pc : Nat) (offset : Int32) : Except Defect Nat :=
  let t := (pc : Int) + offset.toInt
  if 0 ≤ t ∧ t < p.size then .ok t.toNat else .error (.jumpOutOfRange t p.size)

/-- A jump resolves to the index that its offset leads to, if that index is in the program. -/
theorem target_eq_ok_iff {p : Program} {pc t : Nat} {offset : Int32} :
    p.target pc offset = .ok t ↔ (pc : Int) + offset.toInt = t ∧ t < p.size := by
  rw [target]
  split
  · rw [Except.ok.injEq]
    omega
  · constructor
    · intro h
      cases h
    · omega

/-- A jump is refused with the index that its offset leads to, if that index is not in the program. -/
theorem target_eq_error {p : Program} {pc : Nat} {offset : Int32} {defect : Defect}
    (h : p.target pc offset = .error defect) :
    defect = .jumpOutOfRange (pc + offset.toInt) p.size := by
  rw [target] at h
  split at h
  · cases h
  · cases h
    rfl

/-- The literal of a program that begins with a literal without end flag and accepts right behind it. What
follows is never reached, so such a program only asks whether the literal occurs. -/
def soleLiteral? (p : Program) : Option (List UInt8) :=
  match p.instr? 0, p.instr? 1 with
  | some (.literal bytes false), some .accept => some bytes
  | _, _ => none

/-- The defect that `instr` has at index `pc`, taken by itself. -/
def defectAt? (p : Program) (pc : Nat) : Instr → Option Defect
  | .byteClass id _ => if (p.class? id).isSome then none else some (.classOutOfRange id)
  | instr =>
    instr.offset?.bind fun offset =>
      match p.target pc offset with
      | .ok _ => none
      | .error defect => some defect

/-- The first instruction, in order of index, that has a defect by itself. -/
def instrFault? (p : Program) : Option Fault :=
  p.code.toList.zipIdx.findSome? fun (instr, pc) => (p.defectAt? pc instr).map (.corrupt pc)

/-- The fault of a program whose last instruction lets control pass behind it. -/
def endFault? (p : Program) : Option Fault :=
  match p.code.back? with
  | some last => if last.fallsThrough then some (.corrupt (p.size - 1) .openEnd) else none
  | none => none

/-- The first fault that can be found without running the program: it never accepts, an instruction has a
defect, or control can pass behind the last instruction. -/
def fault? (p : Program) : Option Fault :=
  if p.code.any Instr.isAccept then
    p.instrFault?.or p.endFault?
  else
    some (.corrupt p.size .noAccept)

/-- Refuses a program in which a fault can be found without running it. -/
def check (p : Program) : Except Fault Unit :=
  match p.fault? with
  | none => .ok ()
  | some fault => .error fault

/-- The program itself, if it passes `check`. -/
def build (p : Program) : Except Fault Program := p.check.map fun () => p

end Program

end PatternVM
