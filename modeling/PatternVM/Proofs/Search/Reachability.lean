import Mathlib.Logic.Relation
import PatternVM.Proofs.Search.Evaluation
import PatternVM.Proofs.Search.Steps

/-!
# Reachability

An answer is right: `Matcher.test_ok_iff_accepts` says that a match answers yes if some steps lead from the
start to a place that accepts, and no if none do. The matcher's limit and options do not matter, since they
may keep it from an answer but never give a wrong one.

A yes is right because every alternative is a step, and so is what is seen by looking ahead behind a branch.
A no is right because every step is an alternative, and all of them have failed.
-/

namespace PatternVM

namespace Program

/-- A place that accepts can be reached from `c`. -/
def AcceptsFrom (p : Program) (text : Text) (c : Place) : Prop :=
  ∃ c', Relation.ReflTransGen (p.Step text) c c' ∧ p.instr? c'.thread.pc = some .accept

/-- A place that accepts can be reached from the start. -/
def Accepts (p : Program) (text : Text) : Prop := p.AcceptsFrom text .start

variable {p : Program} {text : Text} {c c' : Place}

/-- If looking ahead behind a jump gives the answer yes, the next instruction accepts. -/
lemma next_of_targetFirst {offset : Int32} (h : p.targetFirst c offset = .settled (.ok true)) :
    p.instr? (c.thread.pc + 1) = some .accept := by
  obtain ⟨fault, refused⟩ | ⟨_, next⟩ | ⟨target, _, opened⟩ := p.targetFirst_cases c offset
  · rw [refused] at h
    cases h
  · exact next
  · rw [opened] at h
    cases h

/-- A branch that has seen an accept can jump to it. -/
lemma target_of_nextFirst {offset : Int32} (h : p.nextFirst c offset = .settled (.ok true)) :
    ∃ c', c.JumpsTo offset c' ∧ p.instr? c'.thread.pc = some .accept := by
  obtain ⟨fault, refused⟩ | ⟨target, resolved, ⟨_, accepts⟩ | opened⟩ := p.nextFirst_cases c offset
  · rw [refused] at h
    cases h
  · exact ⟨c.goto target, (jumpsTo_iff resolved).mpr rfl, accepts⟩
  · rw [opened] at h
    cases h

/-- An accepting place accepts. -/
lemma acceptsFrom_of_accept (accepts : p.instr? c.thread.pc = some .accept) : p.AcceptsFrom text c :=
  ⟨c, .refl, accepts⟩

/-- A place accepts if a step leads to one that does. -/
lemma Step.acceptsFrom (step : p.Step text c c') (accepts : p.AcceptsFrom text c') : p.AcceptsFrom text c := by
  obtain ⟨last, steps, accepts⟩ := accepts
  exact ⟨last, .head step steps, accepts⟩

/-- If a place that accepts can be reached, it is this one, or it can be reached after a step. -/
lemma AcceptsFrom.cases (h : p.AcceptsFrom text c) :
    p.instr? c.thread.pc = some .accept ∨ ∃ c', p.Step text c c' ∧ p.AcceptsFrom text c' := by
  obtain ⟨last, steps, accepts⟩ := h
  obtain rfl | ⟨c', step, steps⟩ := Relation.ReflTransGen.cases_head steps
  · exact .inl accepts
  · exact .inr ⟨c', step, last, steps, accepts⟩

/-- A place that gives the answer yes accepts, or goes on to a place that does. -/
lemma acceptsFrom_of_settled (h : p.alternatives text c = .settled (.ok true)) : p.AcceptsFrom text c := by
  cases at_pc : p.instr? c.thread.pc with
  | none =>
    simp only [alternatives, at_pc] at h
    cases h
  | some instr =>
    simp only [alternatives, at_pc] at h
    cases instr with
    | byteClass id atEnd =>
      simp only at h
      split at h
      · cases h
      · cases h
    | textEnd =>
      simp only at h
      split at h
      · cases h
      · cases h
    | jump offset =>
      simp only at h
      split at h
      · cases h
      · cases h
    | branchFirst offset =>
      obtain ⟨c', leads, accepts⟩ := target_of_nextFirst h
      exact Step.acceptsFrom (.passes at_pc (.branchTarget leads)) (acceptsFrom_of_accept accepts)
    | jumpIfAdvanced offset =>
      obtain ⟨t, saved⟩ := c
      cases saved with
      | nil => cases h
      | cons q saved =>
        simp only at h
        split at h
        · cases h
        · rename_i moved
          refine Step.acceptsFrom (.passes at_pc (.movedNext moved)) ?_
          exact acceptsFrom_of_accept (next_of_targetFirst h)
    | jumpFirst offset =>
      refine Step.acceptsFrom (.passes at_pc .jumpNext) ?_
      exact acceptsFrom_of_accept (next_of_targetFirst h)
    | accept => exact acceptsFrom_of_accept at_pc
    | _ => cases h

/-- A place that evaluates to an answer leads to one that accepts exactly if the answer is yes. -/
lemma acceptsFrom_of_evaluate {fuel : Nat} {found : Bool} (within : c.Within text)
    (h : p.evaluate text fuel c = some (.ok found)) : found ↔ p.AcceptsFrom text c := by
  induction fuel generalizing c found with
  | zero => cases h
  | succ fuel ih =>
    cases alternatives : p.alternatives text c with
    | settled own =>
      rw [evaluate_of_settled alternatives] at h
      cases h
      cases found with
      | true => simp [acceptsFrom_of_settled alternatives]
      | false => exact absurd rfl (ne_failure_of_settled alternatives)
    | opened places =>
      rw [evaluate_of_opened alternatives] at h
      cases found with
      | true =>
        -- one of the alternatives leads to a place that accepts, and it is a step away
        obtain ⟨c', mem, evaluated⟩ := List.mem_map.mp (mem_of_firstVerdict h nofun)
        have step := (step_iff_mem within alternatives).mpr mem
        have accepts := (ih (step.within within) evaluated).mp rfl
        simp [step.acceptsFrom accepts]
      | false =>
        -- whatever leads to a place that accepts begins with a step to an alternative, and all have failed
        refine iff_of_false nofun fun accepts => ?_
        obtain here | ⟨c', step, accepts⟩ := accepts.cases
        · rw [alternatives_of_accept here] at alternatives
          cases alternatives
        · have mem := (step_iff_mem within alternatives).mp step
          have evaluated := eq_of_firstVerdict h (List.mem_map_of_mem mem)
          cases (ih (step.within within) evaluated).mpr accepts

/-- The answer that the start yields is yes exactly if the program accepts. -/
lemma accepts_of_yields {found : Bool} (yields : p.Yields text .start (.ok found)) : found ↔ p.Accepts text := by
  obtain ⟨fuel, evaluated⟩ := yields
  exact acceptsFrom_of_evaluate (Nat.zero_le _) evaluated

end Program

namespace Matcher

variable {m : Matcher} {budget : Nat} {p : Program} {text : Text} {o : Outcome}

/-- The answer of a match is the one that the start yields. -/
lemma yields_of_answer (test : m.test budget p text = some o) {found : Bool} (answer : o.verdict = .ok found) :
    p.Yields text .start (.ok found) := by
  obtain yields | ⟨_, refused⟩ := yields_of_test test
  · exact answer ▸ yields
  · rw [answer] at refused
    cases refused

/-- An answer says whether a place that accepts can be reached. -/
lemma accepts_of_answer (test : m.test budget p text = some o) {found : Bool} (answer : o.verdict = .ok found) :
    found ↔ p.Accepts text :=
  Program.accepts_of_yields (yields_of_answer test answer)

/-- Two programs that accept the same texts get the same answer, if both get one. -/
lemma answer_eq_of_accepts_iff {m' : Matcher} {budget' : Nat} {p' : Program} {o' : Outcome} {found found' : Bool}
    (same : p'.Accepts text ↔ p.Accepts text) (test : m.test budget p text = some o)
    (test' : m'.test budget' p' text = some o') (answer : o.verdict = .ok found)
    (answer' : o'.verdict = .ok found') : found = found' := by
  have accepts := accepts_of_answer test answer
  have accepts' := accepts_of_answer test' answer'
  rw [same, ← accepts] at accepts'
  exact Bool.eq_iff_iff.mpr accepts'.symm

/-- A match that ends without a fault has an answer. -/
lemma exists_answer_of_isOk (ok : (m.test budget p text).map (·.verdict.isOk) = some true) :
    ∃ o found, m.test budget p text = some o ∧ o.verdict = .ok found := by
  obtain ⟨o, test, ok⟩ := Option.map_eq_some_iff.mp ok
  cases answer : o.verdict with
  | error fault =>
    rw [answer] at ok
    cases ok
  | ok found => exact ⟨o, found, test, answer⟩

/-- An answer is yes if a place that accepts can be reached, and no if none can, whatever the matcher's
options and limit. -/
theorem test_ok_iff_accepts (test : m.test budget p text = some o) {found : Bool}
    (answer : o.verdict = .ok found) : found ↔ p.Accepts text := by
  obtain yields | ⟨_, refused⟩ := yields_of_test test
  · rw [answer] at yields
    obtain ⟨fuel, evaluated⟩ := yields
    exact Program.acceptsFrom_of_evaluate (Nat.zero_le _) evaluated
  · rw [answer] at refused
    cases refused

/-- A program that asks for nothing but the byte 97 finds it twice, but no other one behind it. -/
theorem test_ok_iff_accepts_repetition :
    let p : Program :=
      ⟨#[.textStart false, .savePos, .byteClass 0 false, .jumpIfAdvanced (-2), .textEnd, .accept],
        #[ByteSet.empty.insert 97]⟩
    let m := Matcher.ofConfig ⟨0, .none⟩
    (∃ o, m.test 20 p #[97, 97] = some o ∧ o.verdict = .ok true ∧ p.Accepts #[97, 97]) ∧
      ∃ o, m.test 20 p #[97, 98] = some o ∧ o.verdict = .ok false ∧ ¬ p.Accepts #[97, 98] := by
  intro p m
  have matches_twice : (m.test 20 p #[97, 97]).map Outcome.verdict = some (.ok true) := by
    decide +kernel
  have fails : (m.test 20 p #[97, 98]).map Outcome.verdict = some (.ok false) := by
    decide +kernel
  obtain ⟨o, test, answer⟩ := Option.map_eq_some_iff.mp matches_twice
  obtain ⟨o', test', answer'⟩ := Option.map_eq_some_iff.mp fails
  refine ⟨⟨o, test, answer, ?_⟩, o', test', answer', ?_⟩
  · exact (test_ok_iff_accepts test answer).mp rfl
  · intro accepts
    cases (test_ok_iff_accepts test' answer').mpr accepts

end Matcher

end PatternVM
