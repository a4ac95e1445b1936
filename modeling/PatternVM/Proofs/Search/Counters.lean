import Mathlib.Tactic.Common
import PatternVM.Proofs.Search.Reached

/-!
# Counters

Whatever moves a search makes, its counters never go down, and the peak is never below the number of choice
points.
-/

namespace PatternVM

/-- No counter of `a` is above that of `b`. -/
structure Stats.AtMost (a b : Stats) : Prop where
  steps : a.steps ≤ b.steps
  backtracks : a.backtracks ≤ b.backtracks
  peak : a.peak ≤ b.peak

/-- Counters are not above themselves. -/
protected lemma Stats.AtMost.refl (a : Stats) : a.AtMost a :=
  ⟨Nat.le_refl _, Nat.le_refl _, Nat.le_refl _⟩

/-- Counters that are not above others are not above what these are not above. -/
protected lemma Stats.AtMost.trans {a b c : Stats} (h : a.AtMost b) (h' : b.AtMost c) : a.AtMost c :=
  ⟨Nat.le_trans h.steps h'.steps, Nat.le_trans h.backtracks h'.backtracks, Nat.le_trans h.peak h'.peak⟩

namespace State

variable (s : State)

/-- Putting an alternative off lowers no counter. -/
lemma atMost_putOff (alternative : Thread) : s.stats.AtMost (s.putOff alternative).state.stats := by
  rw [putOff, ChoiceStack.push]
  by_cases full : s.choices.isFull
  · rw [if_pos full]
    exact .refl _
  · rw [if_neg full]
    exact ⟨Nat.le_refl _, Nat.le_refl _, Nat.le_max_left ..⟩

/-- Going back leaves the peak as it is. -/
lemma peak_backtrack : s.backtrack.state.choices.peak = s.choices.peak := by
  rw [backtrack, ChoiceStack.pop]
  cases s.choices.points.back? with
  | none => rfl
  | some c => rfl

/-- Going back lowers no counter. -/
lemma atMost_backtrack : s.stats.AtMost s.backtrack.state.stats := by
  rw [backtrack, ChoiceStack.pop]
  cases s.choices.points.back? with
  | none => exact .refl _
  | some c => exact ⟨Nat.le_refl _, Nat.le_succ _, Nat.le_refl _⟩

/-- What a move does to the saved positions changes no counter. -/
lemma stats_useMarks (use : MarkUse) : (s.useMarks use).stats = s.stats := by
  cases use with
  | keep => rfl
  | save pos => rfl
  | drop => rfl

/-- In particular it counts no step. -/
lemma steps_useMarks (use : MarkUse) : (s.useMarks use).steps = s.steps :=
  congrArg Stats.steps (s.stats_useMarks use)

/-- Nor does it count a failure. -/
lemma backtracks_useMarks (use : MarkUse) : (s.useMarks use).backtracks = s.backtracks :=
  congrArg Stats.backtracks (s.stats_useMarks use)

/-- Carrying a move out lowers no counter. -/
lemma atMost_perform (move : Move) : s.stats.AtMost (s.perform move).state.stats := by
  refine perform_keeps (I := fun t => s.stats.AtMost t.stats) (.refl _) ?_ ?_ ?_ ?_ move
  · intro t use le
    rw [stats_useMarks]
    exact le
  · exact fun t next le => le
  · exact fun t alternative le => le.trans (t.atMost_putOff alternative)
  · exact fun t le => le.trans t.atMost_backtrack

variable {s}

/-- The peak goes along when an alternative is put off. -/
lemma depth_le_peak_putOff (le : s.choices.depth ≤ s.choices.peak) (alternative : Thread) :
    (s.putOff alternative).state.choices.depth ≤ (s.putOff alternative).state.choices.peak := by
  rw [putOff, ChoiceStack.push]
  by_cases full : s.choices.isFull
  · rw [if_pos full]
    exact le
  · rw [if_neg full]
    have pushed : (s.choices.points.push ⟨alternative, s.marks.bookmark⟩).size = s.choices.depth + 1 :=
      Array.size_push _
    exact Nat.le_trans (Nat.le_of_eq pushed) (Nat.le_max_right ..)

/-- Going back does not take the number of choice points above the peak. -/
lemma depth_le_peak_backtrack (le : s.choices.depth ≤ s.choices.peak) :
    s.backtrack.state.choices.depth ≤ s.backtrack.state.choices.peak := by
  have popped : s.choices.points.pop.size ≤ s.choices.peak := by
    rw [Array.size_pop]
    exact Nat.le_trans (Nat.sub_le ..) le
  rw [backtrack, ChoiceStack.pop]
  cases s.choices.points.back? with
  | none => exact popped
  | some c => exact popped

/-- No move takes the number of choice points above the peak. -/
lemma depth_le_peak_perform (le : s.choices.depth ≤ s.choices.peak) (move : Move) :
    (s.perform move).state.choices.depth ≤ (s.perform move).state.choices.peak := by
  refine perform_keeps (I := fun t => t.choices.depth ≤ t.choices.peak) le ?_ ?_ ?_ ?_ move
  · intro t use le
    rw [choices_useMarks]
    exact le
  · exact fun t next le => le
  · exact fun t alternative le => depth_le_peak_putOff le alternative
  · exact fun t le => depth_le_peak_backtrack le

end State

namespace Search

variable (search : Search) {s t : State}

/-- However threads move, a step lowers no counter. -/
lemma atMost_stepBy (moves : Moves) (s : State) : s.stats.AtMost (search.stepBy moves s).state.stats := by
  refine search.stepBy_keeps (I := fun t => s.stats.AtMost t.stats) (fun log => ?_) fun t move le => ?_
  · exact ⟨Nat.le_succ _, Nat.le_refl _, Nat.le_refl _⟩
  · exact le.trans (t.atMost_perform move)

/-- A step lowers no counter. -/
lemma atMost_step (s : State) : s.stats.AtMost (search.step s).state.stats := search.atMost_stepBy Program.move s

/-- No step takes the number of choice points above the peak. -/
lemma depth_le_peak_step (le : s.choices.depth ≤ s.choices.peak) :
    (search.step s).state.choices.depth ≤ (search.step s).state.choices.peak := by
  refine search.stepBy_keeps (I := fun t => t.choices.depth ≤ t.choices.peak) (fun log => le) fun t move le => ?_
  exact State.depth_le_peak_perform le move

variable {search}

/-- The counters that a run ends with are not below those that it has begun with. -/
lemma atMost_of_run {budget : Nat} {verdict : Verdict} (run : search.run budget s = some (verdict, t)) :
    s.stats.AtMost t.stats :=
  run_keeps (I := fun t => s.stats.AtMost t.stats) run (fun t le => le.trans (search.atMost_step t)) (.refl _)

end Search

end PatternVM
