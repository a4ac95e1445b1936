import PatternVM.Proofs.Search.Counters

/-!
# Peaks

How many choice points a search has when it has most of them, read off its agenda. `Program.Works` works an
agenda off and keeps the greatest number of places that are put off on the way; without a limit a run comes to
the same verdict and leaves that number as its peak, unless the peak has been higher before
(`Program.Works.run`).
-/

namespace PatternVM

namespace Program

/-- An agenda is worked off with a verdict, with at most `most` places put off at a time, and once that many. -/
inductive Works (p : Program) (text : Text) : List Place → Verdict → Nat → Prop where
  | done :
    Works p text [] (.ok false) 0
  | settled {c rest verdict} :
    p.visit text c = .settled verdict →
    Works p text (c :: rest) verdict rest.length
  | opened {c rest places verdict most} :
    p.visit text c = .opened places →
    Works p text (places ++ rest) verdict most →
    Works p text (c :: rest) verdict (max rest.length most)

end Program

/-- The peak goes up with the number of choice points, and not at all when the search ends. -/
def Progress.Raises (before : ChoiceStack) : Progress → Prop
  | .running t => t.choices.peak = max before.peak t.choices.depth
  | .halted _ t => t.choices.peak = before.peak

namespace State

variable {s : State}

/-- There is a place that has been put off for each choice point. -/
lemma length_deferred : s.deferred.length = s.choices.depth := by
  rw [deferred, List.length_map, List.length_reverse, Array.length_toList, ChoiceStack.depth]

/-- Putting an alternative off raises the peak if that makes more choice points than before. -/
lemma raises_putOff (s : State) (alternative : Thread) : (s.putOff alternative).Raises s.choices := by
  rw [putOff, ChoiceStack.push]
  by_cases full : s.choices.isFull
  · rw [if_pos full]
    exact rfl
  · rw [if_neg full]
    have pushed : (s.choices.points.push ⟨alternative, s.marks.bookmark⟩).size = s.choices.depth + 1 :=
      Array.size_push _
    simp only [Progress.Raises, ChoiceStack.depth] at pushed ⊢
    rw [pushed]

/-- Going back leaves the peak as it is. -/
lemma raises_backtrack (le : s.choices.depth ≤ s.choices.peak) : s.backtrack.Raises s.choices := by
  rw [backtrack, ChoiceStack.pop]
  cases s.choices.points.back? with
  | none => exact rfl
  | some c =>
    have popped : s.choices.points.pop.size ≤ s.choices.peak := by
      rw [Array.size_pop]
      exact Nat.le_trans (Nat.sub_le ..) le
    exact (Nat.max_eq_left popped).symm

/-- A move raises the peak with the number of choice points only. -/
lemma raises_perform (le : s.choices.depth ≤ s.choices.peak) (move : Move) :
    (s.perform move).Raises s.choices := by
  cases move with
  | fail => exact raises_backtrack le
  | accept use | corrupt use defect => exact congrArg ChoiceStack.peak (s.choices_useMarks use)
  | goto use next =>
    rw [perform, Progress.Raises, choices_useMarks]
    exact (Nat.max_eq_left le).symm
  | fork use next alternative =>
    rw [← s.choices_useMarks use]
    exact raises_putOff { s.useMarks use with thread := next } alternative

end State

namespace Search

variable (search : Search) {s : State}

/-- A step raises the peak with the number of choice points only. -/
lemma raises_step (le : s.choices.depth ≤ s.choices.peak) : (search.step s).Raises s.choices := by
  cases at_pc : search.program.instr? s.thread.pc with
  | none =>
    rw [search.step_of_none at_pc]
    exact rfl
  | some instr =>
    obtain ⟨log, step⟩ := search.step_of_some at_pc
    rw [step]
    exact State.raises_perform (s := { s with steps := s.steps + 1, log }) le _

end Search

variable {p : Program} {text : Text} {agenda : List Place} {verdict : Verdict} {most : Nat}

/-- A visit that leaves fewer places put off than there will be later does not count. -/
lemma Program.Works.of_opened {c : Place} {rest places : List Place} (visit : p.visit text c = .opened places)
    (works : p.Works text (places ++ rest) verdict most) (le : rest.length ≤ most) :
    p.Works text (c :: rest) verdict most := by
  rw [← Nat.max_eq_right le]
  exact .opened visit works

/-- The places that are put off at first have been counted. -/
lemma Program.Works.length_le (works : p.Works text agenda verdict most) : agenda.length ≤ most + 1 := by
  cases works with
  | done => exact Nat.zero_le _
  | settled => exact Nat.le_refl _
  | opened => exact Nat.succ_le_succ (Nat.le_max_left ..)

/-- Without a limit, a run from a state works its agenda off, and leaves the greatest number of places that were
put off as its peak. -/
lemma Program.Works.run (works : p.Works text agenda verdict most) (tracing : Bool) {s : State} (sound : s.Sound)
    (unlimited : s.choices.limit = 0) (le : s.choices.depth ≤ s.choices.peak) (here : s.agenda = agenda) :
    ∃ budget t, (Search.mk p text tracing).run budget s = some (verdict, t) ∧
      t.choices.peak = max s.choices.peak most := by
  -- a step is one visit, so the induction is on how the agenda is worked off
  induction works generalizing s with
  | done => cases here
  | @settled c rest verdict visit =>
    obtain ⟨rfl, rfl⟩ := List.cons.inj here
    have leads := Search.step_leads ⟨p, text, tracing⟩ sound
    have raises := Search.raises_step ⟨p, text, tracing⟩ le
    rw [visit] at leads
    generalize step : Search.step ⟨p, text, tracing⟩ s = r at leads raises
    cases leads with
    | @settled _ t =>
      refine ⟨1, t, Search.run_of_halted step 0, ?_⟩
      rw [State.length_deferred, Nat.max_eq_left le]
      exact raises
  | @opened c rest places verdict most visit works ih =>
    obtain ⟨rfl, rfl⟩ := List.cons.inj here
    have leads := Search.step_leads ⟨p, text, tracing⟩ sound
    have raises := Search.raises_step ⟨p, text, tracing⟩ le
    have raised := Search.depth_le_peak_step ⟨p, text, tracing⟩ le
    rw [visit] at leads
    rw [State.length_deferred, ← Nat.max_assoc, Nat.max_eq_left le]
    generalize step : Search.step ⟨p, text, tracing⟩ s = r at leads raises raised
    cases leads with
    | refused limited => exact absurd unlimited limited
    | @exhausted t none =>
      -- nothing is left, neither for the run nor for the agenda
      rw [none] at works
      cases works
      exact ⟨1, t, Search.run_of_halted step 0, Eq.trans raises (Nat.max_zero _).symm⟩
    | @running _ t sound' agenda limit =>
      obtain ⟨budget, t', run, peak⟩ := ih sound' (limit.trans unlimited) raised agenda
      refine ⟨budget + 1, t', (Search.run_of_running step budget).trans run, ?_⟩
      have counted : t.choices.depth ≤ most := by
        have length := works.length_le
        rw [← agenda, State.agenda, List.length_cons, State.length_deferred] at length
        exact Nat.le_of_succ_le_succ length
      rw [peak, raises, Nat.max_assoc, Nat.max_eq_right counted]

namespace Matcher

/-- A match without a limit that runs its program works the agenda off from the start. -/
lemma exists_test_of_works (m : Matcher) (unlimited : m.limit = 0) (runs : p.soleLiteral? = none)
    (works : p.Works text [.start] verdict most) :
    ∃ budget o, m.test budget p text = some o ∧ o.verdict = verdict ∧ o.matcher.stats.peak = most := by
  obtain ⟨sound, agenda⟩ := sound_start m.choices m.marks
  obtain ⟨budget, t, run, peak⟩ := works.run (m.options.has .trace) sound unlimited (Nat.zero_le _) agenda
  have slow : m.fastPath? p = none := by
    rw [fastPath?, runs]
    exact ite_self _
  have tested : m.test budget p text = m.run budget p text := by rw [test, slow]
  rw [Matcher.run, run] at tested
  exact ⟨budget, _, tested, rfl, peak.trans (Nat.zero_max _)⟩

end Matcher

end PatternVM
