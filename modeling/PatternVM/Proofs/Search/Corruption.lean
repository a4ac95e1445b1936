import PatternVM.Proofs.Search.Reached

/-!
# Corruption

Which faults a search can find in a program that passes `Program.check`. Control stays at instructions,
wherever it goes and whichever choice point it goes back to, so the only fault left is a `jumpIfAdvanced` that
finds nothing saved (`Matcher.test_corrupt_of_check`).

Even that is ruled out if the instructions can be given heights, such that each edge of the control flow
changes the height as the instruction at its beginning changes the number of saved positions. Then the height
is that number, whenever an instruction is performed (`Matcher.length_saved_of_balanced`).
-/

namespace PatternVM

/-- The number of saved positions after an instruction, if it is `height` before. An instruction that takes
one off needs one. -/
def Instr.heightAfter? (height : Nat) : Instr → Option Nat
  | savePos => some (height + 1)
  | jumpIfAdvanced _ => if 1 ≤ height then some (height - 1) else none
  | _ => some height

namespace Program

/-- Nothing is saved at the first instruction, and along each edge of the control flow the height changes as
the number of saved positions does. -/
def Balanced (p : Program) (height : Nat → Nat) : Prop :=
  height 0 = 0 ∧ ∀ pc < p.size, ∀ instr ∈ p.instr? pc, ∀ pc' ∈ p.successors pc instr,
    instr.heightAfter? (height pc) = some (height pc')

/-- Whether heights are balanced is decided instruction by instruction. -/
instance (p : Program) (height : Nat → Nat) : Decidable (p.Balanced height) :=
  inferInstanceAs (Decidable (_ ∧ _))

variable {p : Program} {text : Text} {c : Place} {instr : Instr} {height : Nat → Nat}

/-- In a closed program a visit to an instruction gives no fault, unless a `jumpIfAdvanced` finds nothing
saved. -/
lemma Closed.nothingSaved_of_visit {fault : Fault} (closed : p.Closed) (lt : c.thread.pc < p.size)
    (within : c.thread.pos ≤ text.size) (visit : p.visit text c = .settled (.error fault)) :
    (∃ offset, p.instr? c.thread.pc = some (.jumpIfAdvanced offset)) ∧ c.saved = [] ∧
      fault = .corrupt c.thread.pc .nothingSaved := by
  have gives := gives_visit (p := p) within
  rw [visit] at gives
  cases gives with
  | pastEnd none =>
    have behind : p.size ≤ c.thread.pc := Array.getElem?_eq_none_iff.mp none
    exact absurd lt (Nat.not_lt.mpr behind)
  | broken at_pc breaks =>
    cases breaks with
    | noClass missing =>
      have found := closed.class_isSome at_pc
      rw [missing] at found
      cases found
    | noTarget jumps refused =>
      obtain ⟨dest, resolved⟩ := closed.exists_target at_pc jumps
      rw [resolved] at refused
      cases refused
    | noAlternative falls none =>
      have inside := closed.next_lt at_pc falls
      exact absurd inside (Nat.not_lt.mpr (Array.getElem?_eq_none_iff.mp none))
    | noMark empty => exact ⟨⟨_, at_pc⟩, empty, rfl⟩

/-- The number of saved positions changes as the height does. -/
lemma length_on_markUse {saved : List Nat} {n : Nat} (pos : Nat)
    (after : instr.heightAfter? saved.length = some n) : ((instr.markUse pos).on saved).length = n := by
  cases instr with
  | savePos =>
    cases after
    rfl
  | jumpIfAdvanced offset =>
    rw [Instr.heightAfter?] at after
    split at after
    · cases after
      exact List.length_tail
    · cases after
  | _ =>
    cases after
    rfl

/-- A place onward has as many saved positions as its height says, if the place before it has. -/
lemma Balanced.length_saved {c' : Place} (balanced : p.Balanced height)
    (at_pc : p.instr? c.thread.pc = some instr) (onward : p.Onward text instr c c')
    (length : c.saved.length = height c.thread.pc) : c'.saved.length = height c'.thread.pc := by
  obtain ⟨_, after⟩ := balanced
  have changes := after _ (lt_size_of_instr? at_pc) instr at_pc _ onward.pc_mem
  rw [← length] at changes
  rw [onward.saved]
  exact length_on_markUse _ changes

/-- In a balanced program there is something saved at every `jumpIfAdvanced`. -/
lemma Balanced.height_ne_zero {offset : Int32} {pc : Nat} (balanced : p.Balanced height)
    (at_pc : p.instr? pc = some (.jumpIfAdvanced offset)) : height pc ≠ 0 := by
  intro zero
  obtain ⟨_, after⟩ := balanced
  have changes := after _ (lt_size_of_instr? at_pc) _ at_pc _ (next_mem_successors rfl)
  rw [zero] at changes
  cases changes

end Program

namespace Matcher

variable {m : Matcher} {p : Program} {text : Text} {s : State} {height : Nat → Nat}

/-- The thread of a closed program stands at an instruction and within the text. -/
lemma Reaches.lt_size (reaches : m.Reaches p text s) (closed : p.Closed) :
    s.thread.pos ≤ text.size ∧ s.thread.pc < p.size := by
  obtain ⟨_, places⟩ := reaches.places (P := fun c => c.thread.pc < p.size) closed.size_pos
    (fun c c' instr _ at_pc onward => closed.lt_size_of_mem_successors at_pc onward.pc_mem)
    (fun c q lt _ => lt)
  exact places s.here List.mem_cons_self

/-- In a balanced program the height at the present instruction is the number of saved positions. -/
lemma Reaches.length_saved (reaches : m.Reaches p text s) (balanced : p.Balanced height) :
    s.marks.toList.length = height s.thread.pc := by
  obtain ⟨_, places⟩ := reaches.places (P := fun c => c.saved.length = height c.thread.pc)
    balanced.1.symm
    (fun c c' instr length at_pc onward => balanced.length_saved at_pc onward length)
    (fun c q length _ => length)
  exact (places s.here List.mem_cons_self).2

/-- The only fault in a program that has passed the check, or has been built with it, is a `jumpIfAdvanced`
that is performed while nothing is saved. Without such an instruction there is none. -/
theorem test_corrupt_of_check {p : Program} (passed : p.check = .ok () ∨ ∃ raw : Program, raw.build = .ok p)
    (m : Matcher) (text : Text) {budget : Nat} {o : Outcome} (test : m.test budget p text = some o) :
    (∀ pc defect, o.verdict = .error (.corrupt pc defect) →
      defect = .nothingSaved ∧ (∃ offset, p.instr? pc = some (.jumpIfAdvanced offset)) ∧
        ∃ s t, m.Reaches p text s ∧ (m.search p text).step s = .halted o.verdict t ∧ s.thread.pc = pc ∧
          s.marks.toList = []) ∧
      ((∀ offset, Instr.jumpIfAdvanced offset ∉ p.code) →
        ∀ pc defect, o.verdict ≠ .error (.corrupt pc defect)) := by
  have closed : p.Closed := by
    obtain checked | ⟨raw, built⟩ := passed
    · exact Program.closed_of_check checked
    · exact Program.closed_of_check (Program.check_of_build built)
  have found : ∀ pc defect, o.verdict = .error (.corrupt pc defect) →
      defect = .nothingSaved ∧ (∃ offset, p.instr? pc = some (.jumpIfAdvanced offset)) ∧
        ∃ s t, m.Reaches p text s ∧ (m.search p text).step s = .halted o.verdict t ∧ s.thread.pc = pc ∧
          s.marks.toList = [] := by
    intro pc defect corrupt
    obtain ⟨s, t, reaches, halts, visit⟩ := exists_reaches_of_corrupt test corrupt
    obtain ⟨within, lt⟩ := reaches.lt_size closed
    obtain ⟨⟨offset, at_pc⟩, empty, fault⟩ := closed.nothingSaved_of_visit (c := s.here) lt within visit
    cases fault
    exact ⟨rfl, ⟨offset, at_pc⟩, s, t, reaches, corrupt ▸ halts, rfl, empty⟩
  refine ⟨found, fun none pc defect corrupt => ?_⟩
  obtain ⟨_, ⟨offset, at_pc⟩, _⟩ := found pc defect corrupt
  exact none offset (Array.mem_of_getElem? at_pc)

/-- A program that passes the check although its second way finds nothing saved. -/
theorem test_corrupt_of_check_branch :
    let p : Program :=
      ⟨#[.branchFirst 3, .literal [97] false, .accept, .jumpIfAdvanced 1, .accept], #[]⟩
    let m := Matcher.ofConfig ⟨1, .trace⟩
    p.check = .ok () ∧
      ∃ o, m.test 10 p #[98] = some o ∧ o.verdict = .error (.corrupt 3 .nothingSaved) ∧
        ∃ s t, m.Reaches p #[98] s ∧ (m.search p #[98]).step s = .halted o.verdict t ∧ s.thread.pc = 3 ∧
          s.marks.toList = [] := by
  intro p m
  have checked : p.check = .ok () := by decide +kernel
  have corrupt : (m.test 10 p #[98]).map Outcome.verdict = some (.error (.corrupt 3 .nothingSaved)) := by
    decide +kernel
  obtain ⟨o, test, verdict⟩ := Option.map_eq_some_iff.mp corrupt
  obtain ⟨found, _⟩ := test_corrupt_of_check (.inl checked) m #[98] test
  obtain ⟨_, _, reached⟩ := found 3 .nothingSaved verdict
  exact ⟨checked, o, test, verdict, reached⟩

/-- A program that passes the check and has heights is never found corrupt, and whenever an instruction is
performed, its height is the number of saved positions. -/
theorem length_saved_of_balanced {p : Program} {height : Nat → Nat} (checked : p.check = .ok ())
    (balanced : p.Balanced height) (m : Matcher) (text : Text) :
    (∀ budget o, m.test budget p text = some o → ∀ pc defect, o.verdict ≠ .error (.corrupt pc defect)) ∧
      ∀ s, m.Reaches p text s → s.marks.toList.length = height s.thread.pc := by
  have closed := Program.closed_of_check checked
  refine ⟨fun budget o test pc defect corrupt => ?_, fun s reaches => reaches.length_saved balanced⟩
  obtain ⟨s, t, reaches, _, visit⟩ := exists_reaches_of_corrupt test corrupt
  obtain ⟨within, lt⟩ := reaches.lt_size closed
  obtain ⟨⟨offset, at_pc⟩, empty, _⟩ := closed.nothingSaved_of_visit (c := s.here) lt within visit
  -- nothing is saved where the height says that something is
  have length := reaches.length_saved balanced
  have zero : s.marks.toList = [] := empty
  rw [zero] at length
  exact balanced.height_ne_zero at_pc length.symm

/-- The heights of a repetition within a repetition. -/
theorem length_saved_of_balanced_nested :
    let p : Program :=
      ⟨#[.textStart false, .branchFirst 8, .savePos, .branchFirst 5, .savePos, .branchFirst 2,
          .literal [98] false, .jumpIfAdvanced (-3), .jumpIfAdvanced (-6), .textEnd, .accept], #[]⟩
    let height : Nat → Nat := fun pc => [0, 0, 0, 1, 1, 2, 2, 2, 1, 0, 0].getD pc 0
    p.check = .ok () ∧ p.Balanced height ∧
      ∀ (m : Matcher) (text : Text) (s : State), m.Reaches p text s →
        s.marks.toList.length = height s.thread.pc := by
  intro p height
  have checked : p.check = .ok () := by decide +kernel
  have balanced : p.Balanced height := by decide +kernel
  exact ⟨checked, balanced, fun m text => (length_saved_of_balanced checked balanced m text).2⟩

end Matcher

end PatternVM
