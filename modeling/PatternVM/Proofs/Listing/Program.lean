import Mathlib.Tactic.Common
import PatternVM.Listing.Program
import PatternVM.Proofs.Listing.Bracketed
import PatternVM.Proofs.Listing.Numeral

/-!
# Listings determine programs

A listing has one line for each instruction and one for each class, and all of the program can be told from it.
-/

namespace PatternVM

namespace Listing

variable {pc pc' id id' : Nat} {i j : Instr} {s t : ByteSet} {atEnd atEnd' : Bool}

/-! ## Instructions -/

/-- The mark tells whether the end of the text is asked for. -/
lemma endMark_injective (same : endMark atEnd = endMark atEnd') : atEnd = atEnd' := by
  cases atEnd <;> cases atEnd' <;> first | rfl | contradiction

/-- No mark begins with a digit. -/
lemma endsNumeral_endMark : EndsNumeral (endMark atEnd) := by
  cases atEnd with
  | false => exact endsNumeral_nil
  | true => exact endsNumeral_cons (by decide)

/-- Marks are printable. -/
lemma printable_endMark : Printable (endMark atEnd) := by
  cases atEnd <;> decide

/-- An offset ends where the blanks in front of its target begin. -/
lemma offset_injective {x y : Int32} {rest rest' : List Char}
    (same : signed x.toInt ++ ' ' :: rest = signed y.toInt ++ ' ' :: rest') : x = y := by
  have blank (rest : List Char) : EndsNumeral (' ' :: rest) := endsNumeral_cons (by decide)
  exact Int32.toInt_inj.1 (signed_append_inj (blank rest) (blank rest') same)

/-- The text of an instruction and of its target determines the instruction. -/
lemma instr_injective (same : instr i ++ arrow pc i = instr j ++ arrow pc j) : i = j := by
  unfold instr at same
  -- The first letters of the texts leave only instructions of one kind.
  cases i <;> cases j <;>
    simp only [arrow, Instr.offset?, String.reduceToList, List.cons_append, List.nil_append, List.append_nil,
      List.cons.injEq, Char.reduceEq, false_and, and_false, reduceCtorEq, true_and] at same
  case literal.literal =>
    obtain ⟨rfl, marks⟩ := selfDelimiting_quoted same
    rw [endMark_injective marks]
  case byteClass.byteClass =>
    obtain ⟨rfl, marks⟩ := decimal_append_inj endsNumeral_endMark endsNumeral_endMark same
    rw [endMark_injective marks]
  case anyByte.anyByte => rw [endMark_injective same]
  case textStart.textStart => rw [endMark_injective same]
  case jump.jump => rw [offset_injective same]
  case branchFirst.branchFirst => rw [offset_injective same]
  case jumpIfAdvanced.jumpIfAdvanced => rw [offset_injective same]
  case jumpFirst.jumpFirst => rw [offset_injective same]
  all_goals rfl

/-- The text of an instruction is printable. -/
lemma printable_instr : Printable (instr i) := by
  unfold instr
  cases i <;> simp only [printable_append, printable_quoted, printable_decimal, printable_signed, printable_endMark,
    and_true] <;> decide

/-- The arrow to a target is printable. -/
lemma printable_arrow : Printable (arrow pc i) := by
  unfold arrow
  split
  · simp only [printable_append, printable_integer, and_true]
    decide
  · exact printable_nil

/-! ## Lines -/

/-- The line of the instruction at `pc`, without its end. -/
def instrRow (pc : Nat) (i : Instr) : List Char :=
  rightAligned pc ++ [':', ' '] ++ instr i ++ arrow pc i

/-- The line of class number `id`, without its end. -/
def classRow (id : Nat) (set : ByteSet) : List Char :=
  [' ', ' ', '#'] ++ decimal id ++ [':', ' '] ++ bracketed set

/-- The row of an instruction tells the instruction and its index. -/
lemma instrRow_injective (same : instrRow pc i = instrRow pc' j) : (i, pc) = (j, pc') := by
  have free (n : Nat) : ':' ∉ rightAligned n := by
    intro mem
    rcases mem_rightAligned mem with eq | digit <;> contradiction
  simp only [instrRow, List.append_assoc, List.cons_append, List.nil_append] at same
  obtain ⟨numbers, texts⟩ := cut_at_stop (free pc) (free pc') same
  obtain rfl := rightAligned_injective numbers
  rw [instr_injective (List.tail_eq_of_cons_eq texts)]

/-- The row of a class tells the class and its number. -/
lemma classRow_injective (same : classRow id s = classRow id' t) : (s, id) = (t, id') := by
  have colon (rest : List Char) : EndsNumeral (':' :: rest) := endsNumeral_cons (by decide)
  simp only [classRow, List.append_assoc, List.cons_append, List.nil_append, List.cons.injEq, true_and] at same
  obtain ⟨rfl, texts⟩ := decimal_append_inj (colon _) (colon _) same
  rw [selfDelimiting_bracketed.injective (List.tail_eq_of_cons_eq (List.tail_eq_of_cons_eq texts))]

/-- The row of an instruction is printable. -/
lemma printable_instrRow : Printable (instrRow pc i) := by
  simp only [instrRow, printable_append, printable_rightAligned, printable_instr, printable_arrow, and_true, true_and]
  decide

/-- The row of a class is printable. -/
lemma printable_classRow : Printable (classRow id s) := by
  simp only [classRow, printable_append, printable_decimal, printable_bracketed, and_true]
  decide

/-- Only the lines of classes have a number sign in the place where the third character of a number is. -/
lemma getElem?_instrRow_ne : (instrRow pc i)[2]? ≠ some '#' := by
  intro sign
  have lt : 2 < (rightAligned pc).length := Nat.lt_of_lt_of_le (by decide) four_le_length_rightAligned
  simp only [instrRow, List.append_assoc] at sign
  rw [List.getElem?_append_left lt] at sign
  rcases mem_rightAligned (List.mem_of_getElem? sign) with eq | digit <;> contradiction

/-- The third character of the row of a class is a number sign. -/
lemma getElem?_classRow : (classRow id s)[2]? = some '#' := rfl

end Listing

namespace Program

open Listing

variable {p q : Program}

/-- The lines of the instructions. -/
def instrRows (p : Program) : List (List Char) := p.code.toList.zipIdx.map fun (i, pc) => instrRow pc i

/-- The lines of the classes. -/
def classRows (p : Program) : List (List Char) := p.classes.toList.zipIdx.map fun (set, id) => classRow id set

/-- There are as many rows of instructions as there are instructions. -/
lemma length_instrRows : p.instrRows.length = p.size := by simp [instrRows, size]

/-- There are as many rows of classes as there are classes. -/
lemma length_classRows : p.classRows.length = p.classes.size := by simp [classRows]

/-- Cut at its line ends, a listing gives the rows of the instructions, those of the classes, and nothing behind the
last line end. -/
lemma splitOn_listing : p.listing.toList.splitOn '\n' = p.instrRows ++ p.classRows ++ [[]] := by
  have lines : p.listing.toList = (p.instrRows ++ p.classRows).flatMap (· ++ ['\n']) := by
    simp only [listing, String.toList_ofList, Listing.program, instrRows, classRows, List.flatMap_append,
      List.flatMap_map]
    rfl
  rw [lines]
  apply splitOn_lines
  simp only [List.forall_mem_append, instrRows, classRows, List.forall_mem_map]
  exact ⟨fun _ _ => printable_instrRow, fun _ _ => printable_classRow⟩

/-- The lines of instructions end where the lines of classes begin. -/
lemma rows_inj (same : p.instrRows ++ p.classRows = q.instrRows ++ q.classRows) :
    p.instrRows = q.instrRows ∧ p.classRows = q.classRows := by
  have inside (p : Program) : ∀ row ∈ p.instrRows, row[2]? != some '#' := by
    simp only [instrRows, List.forall_mem_map, bne_iff_ne]
    exact fun _ _ => getElem?_instrRow_ne
  have after (p : Program) : ∀ row ∈ p.classRows.head?, ¬ row[2]? != some '#' := by
    intro row mem
    obtain ⟨⟨set, id⟩, -, rfl⟩ := List.mem_map.1 (List.mem_of_mem_head? mem)
    simp [getElem?_classRow]
  exact cut (inside p) (inside q) (after p) (after q) same

/-- Numbered rows determine what they are about. -/
lemma eq_of_rows_eq {α : Type} {row : Nat → α → List Char}
    (injective : ∀ (a b : α) (i j : Nat), row i a = row j b → (a, i) = (b, j)) {as bs : List α}
    (same : as.zipIdx.map (fun (a, i) => row i a) = bs.zipIdx.map fun (b, j) => row j b) : as = bs := by
  have numbered : as.zipIdx = bs.zipIdx := (List.map_inj_right fun x y => injective x.1 y.1 x.2 y.2).1 same
  rw [← List.zipIdx_map_fst 0 as, numbered, List.zipIdx_map_fst]

/-- A listing determines the program that it lists, and has one line for each instruction and then one for each class,
whatever the program holds. -/
theorem listing_faithful :
    Function.Injective listing ∧
      ∀ p : Program, p.listing.toList.splitOn '\n' = p.instrRows ++ p.classRows ++ [[]] ∧
        p.instrRows.length = p.size ∧ p.classRows.length = p.classes.size := by
  constructor
  · intro p q same
    have rows : p.instrRows ++ p.classRows ++ [[]] = q.instrRows ++ q.classRows ++ [[]] := by
      rw [← splitOn_listing, same, splitOn_listing]
    obtain ⟨instrs, sets⟩ := rows_inj (List.append_cancel_right rows)
    have code : p.code = q.code := Array.toList_inj.1 (eq_of_rows_eq (fun _ _ _ _ => instrRow_injective) instrs)
    have classes : p.classes = q.classes :=
      Array.toList_inj.1 (eq_of_rows_eq (fun _ _ _ _ => classRow_injective) sets)
    calc p = ⟨p.code, p.classes⟩ := rfl
      _ = q := by rw [code, classes]
  · exact fun p => ⟨splitOn_listing, length_instrRows, length_classRows⟩

/-- A line end, a quote and a bracket among the bytes end no line and no field. -/
example : (Program.mk #[.literal [10, 34] true, .jump (-1)] #[.ofList [10, 93]]).listing =
    "   0: str \"\\012\\\"\" $\n   1: jump -1  (-> 0)\n  #0: [\\012\\]]\n" := by decide +kernel

end Program

end PatternVM
