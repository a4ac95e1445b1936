import Mathlib.Tactic.Common
import PatternVM.Program.Basic

/-!
# Control flow

Where control can pass from an instruction, and what `Program.check` says about it: a program that passes is
*closed*, so control can leave it neither by a jump nor by passing behind its last instruction, and every
class that it asks for exists.
-/

namespace PatternVM.Program

/-- The indices to which control passes from an instruction: the next one, unless it ends there, and the
target of its jump. -/
def successors (p : Program) (pc : Nat) (instr : Instr) : List Nat :=
  (if instr.fallsThrough then [pc + 1] else []) ++
    (instr.offset?.bind fun offset => (p.target pc offset).toOption).toList

/-- Control cannot leave the program, and all classes that it asks for exist. -/
structure Closed (p : Program) : Prop where
  size_pos : 0 < p.size
  class_isSome {pc id atEnd} : p.instr? pc = some (.byteClass id atEnd) → (p.class? id).isSome
  exists_target {pc instr offset} : p.instr? pc = some instr → instr.offset? = some offset →
    ∃ dest, p.target pc offset = .ok dest
  next_lt {pc instr} : p.instr? pc = some instr → instr.fallsThrough → pc + 1 < p.size

variable {p : Program} {instr : Instr} {pc pc' dest : Nat} {offset : Int32}

/-- Control passes to the next instruction, if it does not end, and to the target of a jump. -/
lemma mem_successors : pc' ∈ p.successors pc instr ↔
    (instr.fallsThrough ∧ pc' = pc + 1) ∨
      ∃ offset, instr.offset? = some offset ∧ p.target pc offset = .ok pc' := by
  rw [successors, List.mem_append]
  refine or_congr ?_ ?_
  · split
    · rename_i falls
      rw [List.mem_singleton, and_iff_right falls]
    · rename_i ends
      simp [ends]
  · rw [Option.mem_toList, Option.bind_eq_some_iff]
    refine exists_congr fun offset => and_congr_right fun _ => ?_
    cases p.target pc offset <;> simp [Except.toOption]

/-- An instruction that falls through passes control to the next one. -/
lemma next_mem_successors (falls : instr.fallsThrough) : pc + 1 ∈ p.successors pc instr :=
  mem_successors.mpr (.inl ⟨falls, rfl⟩)

/-- A jump that resolves passes control to its target. -/
lemma target_mem_successors (jumps : instr.offset? = some offset) (resolved : p.target pc offset = .ok dest) :
    dest ∈ p.successors pc instr :=
  mem_successors.mpr (.inr ⟨offset, jumps, resolved⟩)

/-- Control passes no further than to the place behind the last instruction. -/
lemma le_size_of_mem_successors (at_pc : p.instr? pc = some instr) (mem : pc' ∈ p.successors pc instr) :
    pc' ≤ p.size := by
  obtain ⟨lt, _⟩ := Array.getElem?_eq_some_iff.mp at_pc
  obtain ⟨_, rfl⟩ | ⟨offset, _, resolved⟩ := mem_successors.mp mem
  · exact lt
  · exact Nat.le_of_lt (target_eq_ok_iff.mp resolved).2

/-- There are instructions within the program only. -/
lemma lt_size_of_instr? (at_pc : p.instr? pc = some instr) : pc < p.size :=
  (Array.getElem?_eq_some_iff.mp at_pc).1

/-- In a closed program control passes to instructions only. -/
lemma Closed.lt_size_of_mem_successors (closed : p.Closed) (at_pc : p.instr? pc = some instr)
    (mem : pc' ∈ p.successors pc instr) : pc' < p.size := by
  obtain ⟨falls, rfl⟩ | ⟨offset, _, resolved⟩ := mem_successors.mp mem
  · exact closed.next_lt at_pc falls
  · exact (target_eq_ok_iff.mp resolved).2

/-! ## What a check finds out -/

/-- A program that passes the check has no fault. -/
lemma fault?_eq_none_of_check (checked : p.check = .ok ()) : p.fault? = none := by
  rw [check] at checked
  split at checked
  · assumption
  · cases checked

/-- In a program that passes there is an accepting instruction, and neither of the other searches for a fault
finds one. -/
lemma faults_eq_none_of_check (checked : p.check = .ok ()) :
    p.code.any Instr.isAccept ∧ p.instrFault? = none ∧ p.endFault? = none := by
  have none := fault?_eq_none_of_check checked
  rw [fault?] at none
  split at none
  · rename_i accepts
    exact ⟨accepts, Option.or_eq_none_iff.mp none⟩
  · cases none

/-- No instruction of a program that passes the check is defective. -/
lemma defectAt?_eq_none_of_check (checked : p.check = .ok ()) (at_pc : p.instr? pc = some instr) :
    p.defectAt? pc instr = none := by
  obtain ⟨_, none, _⟩ := faults_eq_none_of_check checked
  rw [instrFault?, List.findSome?_eq_none_iff] at none
  have mem : (instr, pc) ∈ p.code.toList.zipIdx := by
    rw [List.mk_mem_zipIdx_iff_getElem?, Array.getElem?_toList]
    exact at_pc
  exact Option.map_eq_none_iff.mp (none _ mem)

/-- A jump that is not defective resolves. -/
lemma exists_target_of_defectAt? (none : p.defectAt? pc instr = none) (jumps : instr.offset? = some offset) :
    ∃ dest, p.target pc offset = .ok dest := by
  have resolved : p.target pc offset ≠ .error (.jumpOutOfRange (pc + offset.toInt) p.size) := by
    intro refused
    cases instr with
    | byteClass id atEnd => cases jumps
    | _ => simp [defectAt?, jumps, refused] at none
  cases target : p.target pc offset with
  | ok dest => exact ⟨dest, rfl⟩
  | error defect => exact absurd (target_eq_error target ▸ target) resolved

/-- A program that passes the check is closed. -/
theorem closed_of_check (checked : p.check = .ok ()) : p.Closed := by
  obtain ⟨accepts, _, ends⟩ := faults_eq_none_of_check checked
  refine ⟨?_, fun {pc id atEnd} at_pc => ?_, fun {pc instr offset} at_pc jumps => ?_,
    fun {pc instr} at_pc falls => ?_⟩
  · obtain ⟨i, lt, _⟩ := Array.any_eq_true.mp accepts
    exact Nat.zero_lt_of_lt lt
  · have none := defectAt?_eq_none_of_check checked at_pc
    by_contra missing
    simp [defectAt?, missing] at none
  · exact exists_target_of_defectAt? (defectAt?_eq_none_of_check checked at_pc) jumps
  · have lt := lt_size_of_instr? at_pc
    rcases Nat.lt_or_eq_of_le (Nat.succ_le_of_lt lt) with inside | last
    · exact inside
    · -- the last instruction does not let control pass behind it
      have back : p.code.back? = some instr := by
        rw [Array.back?, ← show pc + 1 = p.code.size from last]
        exact at_pc
      simp [endFault?, back, falls] at ends

/-- A program that has been built passes the check. -/
lemma check_of_build {raw : Program} (built : raw.build = .ok p) : p.check = .ok () := by
  rw [build] at built
  cases checked : raw.check with
  | error fault =>
    rw [checked] at built
    cases built
  | ok =>
    rw [checked] at built
    cases built
    exact checked

/-- Building a program leaves it as it is. -/
lemma eq_of_build {raw : Program} (built : raw.build = .ok p) : p = raw := by
  rw [build] at built
  cases checked : raw.check with
  | error fault =>
    rw [checked] at built
    cases built
  | ok =>
    rw [checked] at built
    cases built
    rfl

end PatternVM.Program
