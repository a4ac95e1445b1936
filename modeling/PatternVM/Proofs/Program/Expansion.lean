import Mathlib.Tactic.Common
import PatternVM.Proofs.Program.Flow

/-!
# Expansion

A program in which every instruction has been replaced by a block of instructions. The jumps are relocated, so that
each leads to the first instruction of the block that has replaced its target, as far as 32 bits can express the
distance (`Program.JumpsFit`). Here it is said where the blocks are; what they do is the matter of
`PatternVM.Proofs.Search.Expansion`.
-/

namespace PatternVM

/-- What replaces the instructions of a program: `blocks pc instr` is put in the place of `instr` at index `pc`. -/
abbrev Blocks := Nat → Instr → List Instr

namespace Program

/-- The index at which the block for the instruction at `pc` begins. -/
def entry (p : Program) (blocks : Blocks) (pc : Nat) : Nat :=
  ((p.code.toList.zipIdx.take pc).flatMap fun (instr, i) => blocks i instr).length

/-- The beginning of the block to which a jump by `offset` from `pc` leads. -/
def targetEntry (p : Program) (blocks : Blocks) (pc : Nat) (offset : Int32) : Nat :=
  p.entry blocks ((pc : Int) + offset.toInt).toNat

/-- An instruction of the block at `pc`, with its jump led to the block of its old target. -/
def relocated (p : Program) (blocks : Blocks) (pc : Nat) (instr : Instr) : Instr :=
  match instr.offset? with
  | some offset =>
    (instr.withOffset? (offsetTo (p.entry blocks pc) (p.targetEntry blocks pc offset))).getD instr
  | none => instr

/-- The program with all instructions replaced by their blocks, and with more classes in its table. -/
def expand (p : Program) (blocks : Blocks) (added : Array ByteSet) : Program where
  code := (p.code.toList.zipIdx.flatMap fun (instr, pc) =>
    (blocks pc instr).map (p.relocated blocks pc)).toArray
  classes := p.classes ++ added

/-- The distance that a jump by `offset` from `pc` has after its relocation. -/
def distance (p : Program) (blocks : Blocks) (pc : Nat) (offset : Int32) : Int :=
  p.targetEntry blocks pc offset - p.entry blocks pc

/-- The relocated jumps lead no further than 32 bits can express. -/
def JumpsFit (p : Program) (blocks : Blocks) : Prop :=
  ∀ pc < p.size, ∀ instr ∈ p.instr? pc, instr.offset?.all fun offset =>
    Int32.minValue.toInt ≤ p.distance blocks pc offset ∧ p.distance blocks pc offset ≤ Int32.maxValue.toInt

/-- Whether all jumps of an expanded program fit can be decided instruction by instruction. -/
instance (p : Program) (blocks : Blocks) : Decidable (p.JumpsFit blocks) :=
  inferInstanceAs (Decidable (∀ pc < p.size, ∀ instr ∈ p.instr? pc, instr.offset?.all _))

variable {p : Program} {blocks : Blocks} {added : Array ByteSet} {pc dest : Nat} {instr : Instr} {offset : Int32}

/-! ## Where the blocks are -/

/-- The instruction at an index is listed with that index. -/
lemma getElem?_zipIdx_code (at_pc : p.instr? pc = some instr) :
    p.code.toList.zipIdx[pc]? = some (instr, pc) := by
  rw [List.getElem?_zipIdx, Array.getElem?_toList, ← instr?, at_pc, Option.map_some, Nat.zero_add]

/-- The next block begins where the block of an instruction ends. -/
lemma entry_succ (at_pc : p.instr? pc = some instr) :
    p.entry blocks (pc + 1) = p.entry blocks pc + (blocks pc instr).length := by
  rw [entry, entry, List.take_add_one, getElem?_zipIdx_code at_pc, List.flatMap_append, List.length_append]
  congr 1
  exact congrArg List.length (List.append_nil _)

/-- Relocation changes the size of no block. -/
lemma length_flatMap_relocated (p : Program) (blocks : Blocks) (code : List (Instr × Nat)) :
    (code.flatMap fun (instr, pc) => (blocks pc instr).map (p.relocated blocks pc)).length =
      (code.flatMap fun (instr, pc) => blocks pc instr).length := by
  simp only [List.length_flatMap, List.length_map]

/-- The block of an instruction stands in the expanded program from its entry on. -/
lemma block_prefix_drop (p : Program) (blocks : Blocks) (added : Array ByteSet)
    (at_pc : p.instr? pc = some instr) :
    (blocks pc instr).map (p.relocated blocks pc) <+:
      (p.expand blocks added).code.toList.drop (p.entry blocks pc) := by
  obtain ⟨lt, here⟩ := List.getElem?_eq_some_iff.mp (getElem?_zipIdx_code at_pc)
  have split : p.code.toList.zipIdx =
      p.code.toList.zipIdx.take pc ++ (instr, pc) :: p.code.toList.zipIdx.drop (pc + 1) := by
    rw [← here, ← List.drop_eq_getElem_cons lt, List.take_append_drop]
  have code_eq := congrArg
    (List.flatMap fun (instr, pc) => (blocks pc instr).map (p.relocated blocks pc)) split
  rw [List.flatMap_append, List.flatMap_cons] at code_eq
  rw [expand, code_eq, entry, ← length_flatMap_relocated p, List.drop_left]
  exact List.prefix_append _ _

/-- There is nothing behind the last block. -/
lemma instr?_expand_of_none (behind : p.instr? pc = none) :
    (p.expand blocks added).instr? (p.entry blocks pc) = none := by
  have le : p.code.toList.zipIdx.length ≤ pc := by
    rw [List.length_zipIdx, Array.length_toList]
    exact Array.getElem?_eq_none_iff.mp behind
  rw [instr?, Array.getElem?_eq_none_iff, entry, List.take_of_length_le le, ← length_flatMap_relocated p]
  exact Nat.le_of_eq List.size_toArray

/-- An expanded program keeps the classes that were there. -/
lemma class?_expand {id : Nat} {set : ByteSet} (found : p.class? id = some set) :
    (p.expand blocks added).class? id = some set := by
  rw [class?, expand, Array.getElem?_append_left (Array.getElem?_eq_some_iff.mp found).1]
  exact found

/-! ## Where relocated jumps lead -/

/-- An offset that fits into 32 bits is the difference of its target and its index. -/
lemma toInt_offsetTo {target : Nat} (ge : Int32.minValue.toInt ≤ (target : Int) - pc)
    (le : (target : Int) - pc ≤ Int32.maxValue.toInt) : (offsetTo pc target).toInt = target - pc := by
  rw [Int32.toInt_minValue] at ge
  rw [Int32.toInt_maxValue] at le
  rw [offsetTo, ← Int32.ofInt_eq_ofNat, ← Int32.ofInt_eq_ofNat, ← Int32.ofInt_sub]
  exact Int32.toInt_ofInt_of_le ge (Int.lt_of_le_sub_one le)

/-- A relocated jump leads to the block of its old target. -/
lemma JumpsFit.add_toInt_offsetTo (fit : p.JumpsFit blocks) (at_pc : p.instr? pc = some instr)
    (jumps : instr.offset? = some offset) (resolved : p.target pc offset = .ok dest) :
    (p.entry blocks pc : Int) + (offsetTo (p.entry blocks pc) (p.targetEntry blocks pc offset)).toInt =
      p.entry blocks dest := by
  have fits := fit pc (lt_size_of_instr? at_pc) instr at_pc
  rw [jumps, Option.all_some, decide_eq_true_eq] at fits
  obtain ⟨ge, le⟩ := fits
  obtain ⟨leads, _⟩ := target_eq_ok_iff.mp resolved
  rw [toInt_offsetTo ge le, targetEntry, leads, Int.toNat_natCast]
  omega

end Program

end PatternVM
