import PatternVM.Proofs.Matcher.Isolation
import PatternVM.Proofs.Search.Evaluation

/-!
# The fast path

A program that begins with a literal and accepts right behind it asks for no more than an occurrence of the
literal, whatever else stands in it. A matcher may search the text for one, or it may run the program. Both give
the same answer under any limit (`Matcher.test_of_soleLiteral`).

The run takes two steps at most. It puts off a retry behind the first occurrence, which is allowed under every
limit because nothing has been put off before, and never comes back to it.
-/

namespace PatternVM

/-- The counters of a run that looks for a literal and accepts behind it. -/
def Stats.ofLiteral (found : Bool) : Stats := if found then ⟨2, 0, 1, false⟩ else ⟨1, 0, 0, false⟩

/-- The first choice point is not refused by any limit. -/
lemma State.putOff_first {s : State} (first : s.choices.depth = 0) (alternative : Thread) :
    ∃ t, s.putOff alternative = .running t ∧ t.thread = s.thread ∧
      t.stats = { s.stats with peak := max s.choices.peak 1 } := by
  have free : ¬ s.choices.isFull := by
    rw [ChoiceStack.isFull, first]
    simp
  rw [putOff, ChoiceStack.push, if_neg free]
  refine ⟨_, rfl, rfl, ?_⟩
  simp only [stats, first]

namespace Search

variable (search : Search) {bytes : List UInt8} {s : State}

/-- A step at an accepting instruction ends the search with a yes, and counts. -/
lemma step_of_accept (accepts : search.program.instr? s.thread.pc = some .accept) :
    ∃ t, search.step s = .halted (.ok true) t ∧ t.stats = { s.stats with steps := s.steps + 1 } := by
  obtain ⟨log, step⟩ := search.step_of_some accepts
  exact ⟨_, step, rfl⟩

variable (choices : ChoiceStack) (marks : MarkStack)

/-- A run that begins with a literal first looks for it in the whole text. -/
lemma step_start_of_literal (first : search.program.instr? 0 = some (.literal bytes false)) :
    ∃ log, search.step (.start choices marks) =
      State.perform { State.start choices marks with steps := 1, log }
        ((Token.literal bytes).move search.text false .start) :=
  search.step_of_some (s := .start choices marks) first

/-- A literal that is not in the text ends the search with its first step. -/
lemma step_of_missing (first : search.program.instr? 0 = some (.literal bytes false))
    (missing : search.text.find? bytes 0 = none) :
    ∃ t, search.step (.start choices marks) = .halted (.ok false) t ∧ t.stats = ⟨1, 0, 0, false⟩ := by
  obtain ⟨log, step⟩ := search.step_start_of_literal choices marks first
  have fails : (Token.literal bytes).move search.text false .start = .fail := by
    simp only [Token.move, Token.find?, Thread.start, missing]
  rw [fails] at step
  exact ⟨_, step, rfl⟩

/-- A literal that is in the text leads to the instruction behind it, with a choice point for later places. -/
lemma step_of_found {q : Nat} (first : search.program.instr? 0 = some (.literal bytes false))
    (found : search.text.find? bytes 0 = some q) :
    ∃ t, search.step (.start choices marks) = .running t ∧ t.thread.pc = 1 ∧
      t.stats = ⟨1, 0, 1, false⟩ := by
  obtain ⟨log, step⟩ := search.step_start_of_literal choices marks first
  have forks : (Token.literal bytes).move search.text false .start =
      .fork .keep ⟨1, q + bytes.length, false⟩ ⟨0, q + 1, true⟩ := by
    simp only [Token.move, Token.find?, Thread.start, found]
    rfl
  rw [forks] at step
  let s : State :=
    { State.start choices marks with steps := 1, log, thread := ⟨1, q + bytes.length, false⟩ }
  obtain ⟨t, put_off, thread, stats⟩ := s.putOff_first rfl ⟨0, q + 1, true⟩
  refine ⟨t, step.trans put_off, ?_, stats⟩
  rw [thread]

/-- A program that only asks for a literal is run in two steps at most, with the answer and the counters that a search
of the text tells. -/
lemma run_of_soleLiteral (sole : search.program.soleLiteral? = some bytes) :
    ∃ t, search.run 2 (.start choices marks) = some (.ok (search.text.find? bytes 0).isSome, t) ∧
      t.stats = .ofLiteral (search.text.find? bytes 0).isSome := by
  obtain ⟨first, second⟩ := Program.soleLiteral?_eq_some sole
  cases found : search.text.find? bytes 0 with
  | none =>
    obtain ⟨t, step, stats⟩ := search.step_of_missing choices marks first found
    exact ⟨t, run_of_halted step 1, stats⟩
  | some q =>
    obtain ⟨s, step, pc, stats⟩ := search.step_of_found choices marks first found
    obtain ⟨t, step', stats'⟩ := search.step_of_accept (pc.symm ▸ second)
    have steps : s.steps = 1 := congrArg Stats.steps stats
    refine ⟨t, (run_of_running step 1).trans (run_of_halted step' 0), ?_⟩
    rw [stats', stats, steps]
    rfl

end Search

namespace Matcher

variable {m m' : Matcher} {budget : Nat} {p : Program} {text : Text} {bytes : List UInt8}

/-- A program that only asks for a literal gets the same answer on the fast path and on the general one, under
any limits: yes if the literal occurs and is not empty. The general path makes at most two steps and never goes
back. -/
theorem test_of_soleLiteral (fast : m.options.has .noFastPath = false)
    (slow : m'.options.has .noFastPath) (sole : p.soleLiteral? = some bytes) (text : Text) (enough : 2 ≤ budget) :
    ∃ found : Bool, (found ↔ bytes ≠ [] ∧ ∃ i, text.occursAt i bytes) ∧
      (∃ o, m.test budget p text = some o ∧ o.verdict = .ok found ∧ o.matcher.stats = .ofFastPath) ∧
      ∃ o, m'.test budget p text = some o ∧ o.verdict = .ok found ∧
        o.matcher.stats = .ofLiteral found := by
  refine ⟨(text.find? bytes 0).isSome, ?_, ⟨m.scan bytes text, ?_, rfl, rfl⟩, ?_⟩
  · rw [Text.isSome_find?_iff]
    simp only [Nat.zero_le, true_and]
  · rw [Matcher.test, fastPath?, fast, sole]
    rfl
  · obtain ⟨t, run, stats⟩ := (m'.search p text).run_of_soleLiteral m'.choices m'.marks sole
    have run' := Search.run_mono run enough
    rw [test_of_noFastPath slow]
    exact ⟨_, Option.map_eq_some_iff.mpr ⟨_, run', rfl⟩, rfl, stats⟩

/-- A literal with a corrupt instruction behind it, under the lowest limit. -/
theorem test_of_soleLiteral_corrupt :
    let p : Program := ⟨#[.literal [97, 98] false, .accept, .jump 100], #[]⟩
    let m := Matcher.ofConfig ⟨1, .none⟩
    let m' := Matcher.ofConfig ⟨1, .noFastPath⟩
    ∃ o o', m.test 2 p #[97, 97, 98] = some o ∧ m'.test 2 p #[97, 97, 98] = some o' ∧
      o.verdict = .ok true ∧ o'.verdict = .ok true ∧ o'.matcher.stats.backtracks = 0 := by
  intro p m m'
  have fast : m.options.has .noFastPath = false := by decide
  have slow : m'.options.has .noFastPath := by decide
  obtain ⟨found, iff, ⟨o, test, verdict, _⟩, o', test', verdict', stats⟩ :=
    test_of_soleLiteral fast slow (p := p) rfl #[97, 97, 98] (Nat.le_refl 2)
  obtain rfl : found = true := iff.mpr ⟨by decide, 1, by decide⟩
  exact ⟨o, o', test, test', verdict, verdict', congrArg Stats.backtracks stats⟩

end Matcher

end PatternVM
