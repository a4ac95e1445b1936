import PatternVM.Proofs.Search.Counters

/-!
# Deferrals

Where the choice points of a search have gone. A step does at most one of three things: it puts an alternative off,
it goes back to one, or it ends the search. So the steps pay for all choice points that were put on the stack and all
that were taken off again, and for the end (`State.Accounts`). What was put on the stack and has not been gone back
to is still there, and nothing is there any more when a text has been found not to match.

Since storage is taken to be granted, every run gets as far as its first step, and that one pays for the end.
-/

namespace PatternVM

namespace State

/-- Whether a move puts an alternative off, and the limit allows it. -/
def defers (s : State) : Move → Bool
  | .fork use _ alternative =>
    let s := s.useMarks use
    (s.choices.push ⟨alternative, s.marks.bookmark⟩).1.isOk
  | _ => false

/-- The counters agree with `pushes`, the number of choice points that have been put on the stack. -/
structure Accounts (s : State) (pushes : Nat) : Prop where
  balance : s.backtracks + s.choices.depth = pushes
  peak : s.choices.peak ≤ pushes
  steps : pushes + s.backtracks ≤ s.steps

end State

/-- The counters agree with `pushes`. A search that has ended has made one more step for it, and has no choice point
left if it has found that the text does not match. -/
inductive Progress.Accounts (pushes : Nat) : Progress → Prop where
  | running {s} :
    s.Accounts pushes →
    Accounts pushes (.running s)
  | halted {verdict s} :
    s.Accounts pushes →
    pushes + s.backtracks < s.steps →
    (verdict = .ok false → s.choices.depth = 0) →
    Accounts pushes (.halted verdict s)

namespace Search

/-- Whether the next step puts a choice point on the stack. -/
def defers (search : Search) (s : State) : Bool :=
  match search.program.instr? s.thread.pc with
  | none => false
  | some instr => s.defers (search.program.move search.text s.thread (s.marks.newest?.map Mark.pos) instr)

/-- The number of choice points that a run puts on the stack. -/
def deferrals (search : Search) : Nat → State → Nat
  | 0, _ => 0
  | budget + 1, s =>
    (search.defers s).toNat +
      match search.step s with
      | .running t => search.deferrals budget t
      | .halted _ _ => 0

end Search

/-! ## One step -/

namespace State

variable {s : State} {pushes : Nat}

/-- Going back takes one choice point off and counts it, or ends the search with none left. -/
lemma Accounts.backtrack (h : s.Accounts pushes) (spare : pushes + s.backtracks < s.steps) :
    s.backtrack.Accounts pushes := by
  obtain ⟨balance, peak, steps⟩ := h
  have popped : s.choices.points.pop.size = s.choices.depth - 1 := Array.size_pop
  rw [State.backtrack, ChoiceStack.pop]
  cases newest : s.choices.points.back? with
  | none =>
    have empty : s.choices.depth = 0 := by
      rw [ChoiceStack.depth, Array.back?_eq_none_iff.mp newest]
      rfl
    rw [empty] at popped balance
    refine .halted ⟨?_, peak, steps⟩ spare fun _ => popped
    exact (congrArg (s.backtracks + ·) popped).trans balance
  | some c =>
    have some_point : 0 < s.choices.depth := by
      refine Nat.pos_of_ne_zero fun empty => ?_
      rw [Array.back?_eq_none_iff.mpr (Array.eq_empty_of_size_eq_zero empty)] at newest
      cases newest
    refine .running ⟨?_, peak, Nat.succ_le_of_lt spare⟩
    show s.backtracks + 1 + s.choices.points.pop.size = pushes
    omega

/-- Putting an alternative off counts if the limit allows it. -/
lemma Accounts.putOff (h : s.Accounts pushes) (spare : pushes + s.backtracks < s.steps) (alternative : Thread) :
    (s.putOff alternative).Accounts
      (pushes + (s.choices.push ⟨alternative, s.marks.bookmark⟩).1.isOk.toNat) := by
  obtain ⟨balance, peak, steps⟩ := h
  rw [State.putOff, ChoiceStack.push]
  by_cases full : s.choices.isFull
  · rw [if_pos full]
    refine .halted ⟨balance, peak, steps⟩ spare fun no => ?_
    cases no
  · rw [if_neg full]
    have pushed : (s.choices.points.push ⟨alternative, s.marks.bookmark⟩).size = s.choices.depth + 1 :=
      Array.size_push _
    refine .running ⟨?_, Nat.max_le.mpr ⟨Nat.le_succ_of_le peak, ?_⟩, ?_⟩
    · show s.backtracks + (s.choices.points.push ⟨alternative, s.marks.bookmark⟩).size = pushes + 1
      omega
    · show s.choices.depth + 1 ≤ pushes + 1
      omega
    · show pushes + 1 + s.backtracks ≤ s.steps
      omega

/-- What a move does to the saved positions has no part in the accounts. -/
lemma Accounts.useMarks (h : s.Accounts pushes) (use : MarkUse) : (s.useMarks use).Accounts pushes := by
  cases use with
  | keep => exact h
  | save pos => exact ⟨h.balance, h.peak, h.steps⟩
  | drop => exact ⟨h.balance, h.peak, h.steps⟩

/-- Whether a move puts an alternative off does not depend on the number of steps and the reports. -/
lemma defers_counted (s : State) (steps : Nat) (log : Log) (move : Move) :
    State.defers { s with steps, log } move = s.defers move := by
  cases move with
  | fork use next alternative =>
    cases use with
    | keep => rfl
    | save pos => rfl
    | drop => rfl
  | _ => rfl

/-- After a step has been counted, every move keeps the accounts. -/
lemma Accounts.perform (h : s.Accounts pushes) (spare : pushes + s.backtracks < s.steps) (move : Move) :
    (s.perform move).Accounts (pushes + (s.defers move).toNat) := by
  cases move with
  | fail => exact h.backtrack spare
  | accept use | corrupt use defect =>
    refine .halted (h.useMarks use) ?_ nofun
    rw [backtracks_useMarks, steps_useMarks]
    exact spare
  | goto use next =>
    obtain ⟨balance, peak, steps⟩ := h.useMarks use
    exact .running ⟨balance, peak, steps⟩
  | fork use next alternative =>
    obtain ⟨balance, peak, steps⟩ := h.useMarks use
    have spare' : pushes + (s.useMarks use).backtracks < (s.useMarks use).steps := by
      rw [backtracks_useMarks, steps_useMarks]
      exact spare
    exact Accounts.putOff (s := { s.useMarks use with thread := next }) ⟨balance, peak, steps⟩ spare' alternative

end State

namespace Search

variable {search : Search} {s t : State} {pushes : Nat}

/-- A step keeps the accounts. -/
lemma accounts_step (h : s.Accounts pushes) :
    (search.step s).Accounts (pushes + (search.defers s).toNat) := by
  obtain ⟨balance, peak, steps⟩ := h
  rw [defers]
  cases at_pc : search.program.instr? s.thread.pc with
  | none =>
    rw [search.step_of_none at_pc]
    exact .halted ⟨balance, peak, Nat.le_succ_of_le steps⟩ (Nat.lt_succ_of_le steps) nofun
  | some instr =>
    obtain ⟨log, step⟩ := search.step_of_some at_pc
    rw [step]
    show Progress.Accounts (pushes + (s.defers _).toNat) _
    rw [← s.defers_counted (s.steps + 1) log]
    exact State.Accounts.perform (s := { s with steps := s.steps + 1, log })
      ⟨balance, peak, Nat.le_succ_of_le steps⟩ (Nat.lt_succ_of_le steps) _

/-! ## Whole runs -/

/-- At the end of a run its accounts are right. -/
lemma accounts_run {budget : Nat} {verdict : Verdict} (h : s.Accounts pushes)
    (run : search.run budget s = some (verdict, t)) :
    (Progress.halted verdict t).Accounts (pushes + search.deferrals budget s) := by
  -- the choice points of the steps so far are carried along
  induction budget generalizing s pushes with
  | zero => cases run
  | succ budget ih =>
    have accounts : (search.step s).Accounts (pushes + (search.defers s).toNat) := accounts_step h
    rw [deferrals, ← Nat.add_assoc]
    cases step : search.step s with
    | running next =>
      rw [step] at accounts
      cases accounts with
      | running accounts =>
        rw [run_of_running step] at run
        exact ih accounts run
    | halted own last =>
      rw [run_of_halted step] at run
      cases run
      rw [step] at accounts
      exact accounts

end Search

namespace Matcher

variable {m : Matcher} {budget : Nat} {p : Program} {text : Text} {o : Outcome}

/-- A match that runs its program makes a step for each failure that leads back to an alternative, one for each time
that an alternative is put off, and one to end. All choice points that it has put on the stack are either gone back to
or left there, and a text that does not match leaves none. -/
theorem deferrals_of_test (general : m.fastPath? p = none) (test : m.test budget p text = some o) :
    1 + o.matcher.stats.backtracks + max o.matcher.stats.backtracks o.matcher.stats.peak ≤ o.matcher.stats.steps ∧
      o.matcher.stats.backtracks + o.matcher.choices.depth =
        (m.search p text).deferrals budget (.start m.choices m.marks) ∧
      (o.verdict = .ok false →
        o.matcher.choices.depth = 0 ∧
          o.matcher.stats.backtracks = (m.search p text).deferrals budget (.start m.choices m.marks) ∧
          o.matcher.stats.peak ≤ o.matcher.stats.backtracks) := by
  rw [Matcher.test, general] at test
  obtain ⟨⟨verdict, t⟩, run, rfl⟩ := Option.map_eq_some_iff.mp test
  have start : (State.start m.choices m.marks).Accounts 0 := ⟨rfl, Nat.le_refl _, Nat.le_refl _⟩
  have accounts := Search.accounts_run start run
  rw [Nat.zero_add] at accounts
  cases accounts with
  | halted accounts spent empty =>
    obtain ⟨balance, peak, _⟩ := accounts
    have back : t.backtracks ≤ (m.search p text).deferrals budget (.start m.choices m.marks) :=
      balance ▸ Nat.le_add_right ..
    refine ⟨?_, balance, fun no => ?_⟩
    · have most := Nat.max_le.mpr ⟨back, peak⟩
      show 1 + t.backtracks + max t.backtracks t.choices.peak ≤ t.steps
      omega
    · have none_left := empty no
      have all : t.backtracks = (m.search p text).deferrals budget (.start m.choices m.marks) := by
        rw [none_left] at balance
        exact balance
      exact ⟨none_left, all, Nat.le_trans peak (Nat.le_of_eq all.symm)⟩

/-- Two occurrences of a byte are found, and neither of them is at the end of the text. -/
theorem deferrals_of_test_exhausted :
    let m := Matcher.ofConfig ⟨0, .none⟩
    let p : Program := ⟨#[.literal [97] false, .textEnd, .accept], #[]⟩
    let text : Text := #[97, 97, 98]
    ∃ o, m.test 9 p text = some o ∧ o.verdict = .ok false ∧ o.matcher.stats.steps = 5 ∧
      o.matcher.stats.backtracks = 2 ∧ (m.search p text).deferrals 9 (.start m.choices m.marks) = 2 ∧
      o.matcher.stats.peak ≤ 2 := by
  intro m p text
  have found : (m.test 9 p text).map (fun o => (o.verdict, o.matcher.stats.steps, o.matcher.stats.backtracks)) =
      some (.ok false, 5, 2) := by decide +kernel
  obtain ⟨o, test, counted⟩ := Option.map_eq_some_iff.mp found
  obtain ⟨no, counted⟩ := Prod.mk.inj counted
  obtain ⟨steps, backtracks⟩ := Prod.mk.inj counted
  obtain ⟨_, _, exhausted⟩ := deferrals_of_test (by decide) test
  obtain ⟨_, all, peak⟩ := exhausted no
  rw [backtracks] at all peak
  exact ⟨o, test, no, steps, backtracks, all.symm, peak⟩

end Matcher

end PatternVM
