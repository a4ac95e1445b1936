import Mathlib.Tactic.Common
import PatternVM.Proofs.Search.Agenda

/-!
# Runs in lockstep

Two searches run in lockstep if each step takes related states to related states, or ends both searches with
the same verdict. `Search.run_rel` leads that over to whole runs.

It is applied to states that differ in nothing but what a search cannot see: the capacities of its stacks, and
its own reports. `State.bare` takes both away, and each operation may be performed before or after that.
-/

namespace PatternVM

/-- Both searches go on with related states, or both end with the same verdict in related states. -/
inductive Progress.Rel (R : State → State → Prop) : Progress → Progress → Prop where
  | running {s t} :
    R s t →
    Rel R (.running s) (.running t)
  | halted {verdict s t} :
    R s t →
    Rel R (.halted verdict s) (.halted verdict t)

/-- What the steps keep, the runs keep: within any budget both come to the same verdict, or neither does. -/
lemma Search.run_rel {R : State → State → Prop} {search search' : Search} {s t : State}
    (steps : ∀ s t, R s t → Progress.Rel R (search.step s) (search'.step t)) (start : R s t) (budget : Nat) :
    Option.Rel (fun r r' => r.1 = r'.1 ∧ R r.2 r'.2) (search.run budget s) (search'.run budget t) := by
  induction budget generalizing s t with
  | zero => exact .none
  | succ budget ih =>
    have rel := steps s t start
    generalize step : search.step s = x at rel
    generalize step' : search'.step t = y at rel
    cases rel with
    | running related =>
      rw [run_of_running step, run_of_running step']
      exact ih related
    | halted related =>
      rw [run_of_halted step, run_of_halted step']
      exact .some ⟨rfl, related⟩

/-! ## Without capacities and reports -/

/-- A stack of choice points without its capacity. -/
def ChoiceStack.bare (s : ChoiceStack) : ChoiceStack := { s with capacity := 0 }

/-- A stack of saved positions without its capacity. -/
def MarkStack.bare (m : MarkStack) : MarkStack := { m with capacity := 0 }

/-- A state without capacities and reports. -/
def State.bare (s : State) : State := { s with choices := s.choices.bare, marks := s.marks.bare, log := #[] }

/-- Progress without capacities and reports. -/
def Progress.bare : Progress → Progress
  | running s => .running s.bare
  | halted verdict s => .halted verdict s.bare

namespace MarkStack

variable (m : MarkStack)

/-- Saving a position does not depend on the capacity. -/
lemma bare_push (pos owner : Nat) : (m.push pos owner).bare = (m.bare.push pos owner).bare := by
  simp only [push, bare, slot, Array.size_setIfInBounds]
  by_cases grows : m.top + 1 = m.slots.size
  · simp only [if_pos grows]
  · simp only [if_neg grows]

/-- Taking a position off does not depend on the capacity. -/
lemma bare_drop (owner : Nat) : (m.drop owner).bare = (m.bare.drop owner).bare := by
  cases newest : m.newest? with
  | none =>
    have newest' : m.bare.newest? = none := newest
    rw [drop_of_none newest, drop_of_none newest']
    rfl
  | some mark =>
    have newest' : m.bare.newest? = some mark := newest
    by_cases own : mark.owner = owner
    · rw [drop_of_owner_eq newest own, drop_of_owner_eq newest' own]
      rfl
    · rw [drop_of_owner_ne newest own, drop_of_owner_ne newest' own]
      rfl

end MarkStack

namespace State

variable (s : State)

/-- What a move does to the saved positions does not depend on capacities and reports. -/
lemma bare_useMarks (use : MarkUse) : (s.useMarks use).bare = (s.bare.useMarks use).bare := by
  cases use with
  | keep => rfl
  | save pos =>
    have marks := s.marks.bare_push pos s.choices.depth
    exact congrArg (fun marks => { s.bare with marks }) marks
  | drop =>
    have marks := s.marks.bare_drop s.choices.depth
    exact congrArg (fun marks => { s.bare with marks }) marks

/-- Putting an alternative off does not depend on capacities and reports. -/
lemma bare_putOff (alternative : Thread) :
    (s.putOff alternative).bare = (s.bare.putOff alternative).bare := by
  rw [putOff, putOff, ChoiceStack.push, ChoiceStack.push]
  by_cases full : s.choices.isFull
  · have full' : s.bare.choices.isFull := full
    rw [if_pos full, if_pos full']
    rfl
  · have full' : ¬ s.bare.choices.isFull := full
    rw [if_neg full, if_neg full']
    rfl

/-- Going back does not depend on capacities and reports. -/
lemma bare_backtrack : s.backtrack.bare = s.bare.backtrack.bare := by
  rw [backtrack, backtrack, ChoiceStack.pop, ChoiceStack.pop]
  have newest : s.bare.choices.points.back? = s.choices.points.back? := rfl
  rw [newest]
  cases s.choices.points.back? with
  | none => rfl
  | some c => rfl

/-- No move depends on capacities and reports. -/
lemma bare_perform (move : Move) : (s.perform move).bare = (s.bare.perform move).bare := by
  cases move with
  | fail => exact s.bare_backtrack
  | accept use => exact congrArg (Progress.halted _) (s.bare_useMarks use)
  | corrupt use defect => exact congrArg (Progress.halted _) (s.bare_useMarks use)
  | goto use next =>
    have used := congrArg (fun t : State => { t with thread := next }) (s.bare_useMarks use)
    exact congrArg Progress.running used
  | fork use next alternative =>
    have used := congrArg (fun t : State => { t with thread := next }) (s.bare_useMarks use)
    have put_off := congrArg (fun t : State => (t.putOff alternative).bare) used
    rw [perform, perform, bare_putOff, bare_putOff { s.bare.useMarks use with thread := next }]
    exact put_off

/-- States that differ in capacities and reports only. -/
def Alike (s t : State) : Prop := s.bare = t.bare

variable {s} {t : State}

/-- Whatever can be told without capacities and reports is the same for states that are alike. -/
lemma Alike.map {α : Type} (alike : s.Alike t) (f : State → α) : f s.bare = f t.bare := congrArg f alike

/-- Counting a step, whatever is reported of it, leaves states alike. -/
lemma Alike.count (alike : s.Alike t) (log log' : Log) :
    State.Alike { s with steps := s.steps + 1, log } { t with steps := t.steps + 1, log := log' } := by
  have same : s.bare = t.bare := alike
  exact congrArg (fun s : State => { s with steps := s.steps + 1 }) same

/-- In states that are alike a move comes to the same. -/
lemma Alike.perform (alike : s.Alike t) (move : Move) : (s.perform move).bare = (t.perform move).bare := by
  rw [bare_perform, alike, ← bare_perform]

/-- In states that are alike an instruction comes to the same. -/
lemma Alike.perform_move (alike : s.Alike t) (p : Program) (text : Text) (instr : Instr) :
    (s.perform (p.move text s.thread (s.marks.newest?.map Mark.pos) instr)).bare =
      (t.perform (p.move text t.thread (t.marks.newest?.map Mark.pos) instr)).bare := by
  have thread : s.thread = t.thread := alike.map State.thread
  have newest : s.marks.newest? = t.marks.newest? := alike.map (·.marks.newest?)
  rw [thread, newest]
  exact alike.perform _

end State

/-- Progress that is the same without capacities and reports relates states that are alike. -/
lemma Progress.rel_of_bare {x y : Progress} (same : x.bare = y.bare) : Rel State.Alike x y := by
  cases x with
  | running s =>
    cases y with
    | running t => exact .running (Progress.running.inj same)
    | halted verdict t => cases same
  | halted verdict s =>
    cases y with
    | running t => cases same
    | halted verdict' t =>
      obtain ⟨rfl, alike⟩ := Progress.halted.inj same
      exact .halted alike

/-- Steps from states that differ in capacities and reports only lead to such states again, whether or not
they are reported themselves. -/
lemma State.Alike.step {s t : State} (alike : s.Alike t) (p : Program) (text : Text) (tracing tracing' : Bool) :
    Progress.Rel Alike (Search.step ⟨p, text, tracing⟩ s) (Search.step ⟨p, text, tracing'⟩ t) := by
  have thread : s.thread = t.thread := alike.map State.thread
  have same_instr : p.instr? s.thread.pc = p.instr? t.thread.pc := by rw [thread]
  cases at_pc : p.instr? t.thread.pc with
  | none =>
    rw [at_pc] at same_instr
    have counted := alike.count s.log t.log
    have ended := congrArg₂ (fun t : Thread => Progress.halted (.error (.corrupt t.pc .pastEnd))) thread counted
    rw [Search.step_of_none ⟨p, text, tracing⟩ same_instr, Search.step_of_none ⟨p, text, tracing'⟩ at_pc]
    exact Progress.rel_of_bare ended
  | some instr =>
    rw [at_pc] at same_instr
    obtain ⟨log, step⟩ := Search.step_of_some ⟨p, text, tracing⟩ same_instr
    obtain ⟨log', step'⟩ := Search.step_of_some ⟨p, text, tracing'⟩ at_pc
    rw [step, step']
    exact Progress.rel_of_bare ((alike.count log log').perform_move p text instr)

end PatternVM
