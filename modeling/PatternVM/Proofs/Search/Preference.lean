import PatternVM.Proofs.Search.Reachability

/-!
# Preference

Which way of a branch is tried first does not show in an answer. `branchFirst` and `jumpFirst` allow the same
steps, so the same places can be reached in a program in which some of them have been exchanged, and two matches
that both come to an answer come to the same one (`Matcher.test_exchange`). They may still need different numbers
of steps and choice points, and one of them may run into its limit or into a defect.
-/

namespace PatternVM

/-- A branch with its two ways in the other order of preference. Other instructions stay as they are. -/
def Instr.mirrored : Instr → Instr
  | branchFirst offset => jumpFirst offset
  | jumpFirst offset => branchFirst offset
  | instr => instr

/-- Mirrored twice, a branch is what it was. -/
lemma Instr.mirrored_mirrored (instr : Instr) : instr.mirrored.mirrored = instr := by
  cases instr <;> rfl

/-- A mirrored branch leads to the same places. -/
lemma Text.Passes.mirrored {text : Text} {instr : Instr} {c c' : Place} (passes : text.Passes instr c c') :
    text.Passes instr.mirrored c c' := by
  cases instr with
  | branchFirst offset => exact passes_jumpFirst_iff.mpr (passes_branchFirst_iff.mp passes)
  | jumpFirst offset => exact passes_branchFirst_iff.mpr (passes_jumpFirst_iff.mp passes)
  | _ => exact passes

namespace Program

/-- The program with the branches at the chosen indices mirrored. -/
def exchange (p : Program) (chosen : Nat → Bool) : Program :=
  { p with code := p.code.mapIdx fun pc instr => if chosen pc then instr.mirrored else instr }

variable {p : Program} (chosen : Nat → Bool) {text : Text} {instr : Instr} {c c' : Place}

/-- An exchange mirrors the instructions at the chosen indices and leaves the others as they are. -/
lemma instr?_exchange {pc : Nat} (at_pc : p.instr? pc = some instr) :
    (p.exchange chosen).instr? pc = some (if chosen pc then instr.mirrored else instr) := by
  rw [instr?, exchange, Array.getElem?_mapIdx]
  exact congrArg (Option.map _) at_pc

/-- Two exchanges at the same indices undo each other. -/
lemma exchange_exchange : (p.exchange chosen).exchange chosen = p := by
  have same : ((p.exchange chosen).exchange chosen).code = p.code := by
    refine Array.ext_getElem? fun pc => ?_
    simp only [exchange, Array.getElem?_mapIdx]
    cases p.code[pc]? with
    | none => rfl
    | some instr =>
      cases chosen pc with
      | true => exact congrArg some instr.mirrored_mirrored
      | false => rfl
  exact congrArg (Program.mk · p.classes) same

/-! ## Steps -/

/-- An instruction that takes bytes is no branch, so mirroring changes nothing. -/
lemma Takes.mirrored (takes : p.Takes text instr c c') : p.Takes text instr.mirrored c c' := by
  cases instr with
  | branchFirst offset => exact absurd takes (not_takes nofun)
  | jumpFirst offset => exact absurd takes (not_takes nofun)
  | _ => exact takes

/-- An exchange leaves the classes alone, so the same bytes are taken. -/
lemma Takes.exchange (takes : p.Takes text instr c c') : (p.exchange chosen).Takes text instr c c' := by
  have spells {atEnd bytes} (h : p.Spells instr atEnd bytes) : (p.exchange chosen).Spells instr atEnd bytes := by
    cases h with
    | literal => exact .literal
    | byteClass found mem => exact .byteClass found mem
    | anyByte => exact .anyByte
  cases takes with
  | anchored h stands ends => exact .anchored (spells h) stands ends
  | unanchored h le stands ends empty => exact .unanchored (spells h) le stands ends empty

/-- After an exchange the same steps are possible. -/
lemma Step.exchange (step : p.Step text c c') : (p.exchange chosen).Step text c c' := by
  cases step with
  | takes at_pc takes =>
    refine .takes (instr?_exchange chosen at_pc) ?_
    split
    · exact takes.mirrored.exchange chosen
    · exact takes.exchange chosen
  | passes at_pc passes =>
    refine .passes (instr?_exchange chosen at_pc) ?_
    split
    · exact passes.mirrored
    · exact passes

/-- After an exchange a program still accepts. -/
lemma Accepts.exchange (accepts : p.Accepts text) : (p.exchange chosen).Accepts text := by
  obtain ⟨last, steps, at_pc⟩ := accepts
  have at_pc' := instr?_exchange chosen at_pc
  have steps' := Relation.ReflTransGen.mono (fun _ _ step => Step.exchange chosen step) _ _ steps
  refine ⟨last, steps', at_pc'.trans ?_⟩
  split <;> rfl

/-- A place that accepts can be reached after an exchange exactly if one could before. -/
lemma accepts_exchange : (p.exchange chosen).Accepts text ↔ p.Accepts text := by
  constructor
  · intro accepts
    -- a second exchange takes the first one back
    have back := accepts.exchange chosen
    rw [exchange_exchange] at back
    exact back
  · exact Accepts.exchange chosen

end Program

namespace Matcher

variable {m m' : Matcher} {budget budget' : Nat} {p : Program} {chosen : Nat → Bool} {text : Text}
variable {o o' : Outcome} {found found' : Bool}

/-- Two matches that both answer give the same answer, whatever their configurations are, if the program of one
is that of the other with `branchFirst` and `jumpFirst` exchanged at any indices. -/
theorem test_exchange (test : m.test budget p text = some o)
    (test' : m'.test budget' (p.exchange chosen) text = some o') (answer : o.verdict = .ok found)
    (answer' : o'.verdict = .ok found') : found = found' := by
  have accepts := Program.accepts_of_yields (yields_of_answer test answer)
  have accepts' := Program.accepts_of_yields (yields_of_answer test' answer')
  rw [Program.accepts_exchange, ← accepts] at accepts'
  exact Bool.eq_iff_iff.mpr accepts'.symm

/-- A repetition over two alternatives, and the same with all its branches exchanged. -/
theorem test_exchange_repetition :
    let p : Program :=
      ⟨#[.textStart false, .branchFirst 7, .savePos, .branchFirst 3, .literal [97, 98] false, .jump 2,
          .literal [99] false, .jumpIfAdvanced (-5), .textEnd, .accept], #[]⟩
    let q := p.exchange fun _ => true
    let m := Matcher.ofConfig ⟨0, .none⟩
    let m' := Matcher.ofConfig ⟨4, .trace⟩
    q.instr? 3 = some (.jumpFirst 3) ∧
      ∃ o o', m.test 100 p #[97, 98, 99] = some o ∧ m'.test 50 q #[97, 98, 99] = some o' ∧
        o.verdict = .ok true ∧ o'.verdict = .ok true := by
  intro p q m m'
  have mirrored : q.instr? 3 = some (.jumpFirst 3) := by decide +kernel
  have matches_text : (m.test 100 p #[97, 98, 99]).map Outcome.verdict = some (.ok true) := by
    decide +kernel
  have answers : (m'.test 50 q #[97, 98, 99]).map (·.verdict.isOk) = some true := by decide +kernel
  obtain ⟨o, test, answer⟩ := Option.map_eq_some_iff.mp matches_text
  obtain ⟨o', test', ok⟩ := Option.map_eq_some_iff.mp answers
  cases answer' : o'.verdict with
  | error fault =>
    rw [answer'] at ok
    cases ok
  | ok found' =>
    obtain rfl : true = found' := test_exchange test test' answer answer'
    exact ⟨mirrored, o, o', test, test', answer, answer'⟩

end Matcher

end PatternVM
