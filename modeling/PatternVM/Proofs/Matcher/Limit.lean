import PatternVM.Proofs.Matcher.Isolation
import PatternVM.Proofs.Search.Counters

/-!
# Limits

A limit for choice points cuts off exactly the runs that need more of them. A run that gets by with the limit
is not changed by it; any other run ends at the first choice point beyond it, with the stack filled up to the
limit (`Matcher.test_of_limit`).

Without a limit and with one, a search runs in lockstep through states that differ in the limit only. This ends
at the step that takes the peak of the unlimited search above the limit, which the limited one refuses. Since
the peak never goes down again, a run with a low peak has no such step.
-/

namespace PatternVM

/-- The same state with another limit for choice points. -/
def State.withLimit (s : State) (limit : Nat) : State :=
  { s with choices := s.choices.withLimit limit }

/-- The same progress under another limit. -/
def Progress.withLimit (limit : Nat) : Progress → Progress
  | running s => .running (s.withLimit limit)
  | halted verdict s => .halted verdict (s.withLimit limit)

/-- What a limit makes of an unlimited step: it lets the step be, or it refuses the choice point that takes the
peak above it. -/
inductive Limited (limit : Nat) : Progress → Progress → Prop where
  | allowed {x} :
    x.state.choices.peak ≤ limit →
    Limited limit x (x.withLimit limit)
  | refused {s t} :
    limit < s.choices.peak →
    t.choices.peak = limit →
    Limited limit (.running s) (.halted (.error .choiceLimit) t)

namespace State

/-- No limit is set, but the search has kept to `limit` so far. -/
structure Respects (s : State) (limit : Nat) : Prop where
  unlimited : s.choices.limit = 0
  depth_le : s.choices.depth ≤ s.choices.peak
  peak_le : s.choices.peak ≤ limit

variable {s : State} {limit : Nat}

/-- What a move does to the saved positions has nothing to do with the limit. -/
lemma withLimit_useMarks (use : MarkUse) :
    (s.withLimit limit).useMarks use = (s.useMarks use).withLimit limit := by
  cases use with
  | keep => rfl
  | save pos => rfl
  | drop => rfl

/-- Under a limit, putting an alternative off comes to the same, or it is refused because the peak would exceed the
limit. -/
lemma Respects.putOff (h : s.Respects limit) (set : limit ≠ 0) (alternative : Thread) :
    Limited limit (s.putOff alternative) ((s.withLimit limit).putOff alternative) := by
  obtain ⟨unlimited, depth_le, peak_le⟩ := h
  have free : ¬ s.choices.isFull := by simp [ChoiceStack.isFull, unlimited]
  have full_iff : (s.withLimit limit).choices.isFull ↔ limit ≤ s.choices.depth := by
    rw [ChoiceStack.isFull, Bool.and_eq_true, decide_eq_true_iff, decide_eq_true_iff]
    exact and_iff_right set
  rw [State.putOff, State.putOff, ChoiceStack.push, ChoiceStack.push, if_neg free]
  by_cases full : limit ≤ s.choices.depth
  · -- the stack is filled up to the limit, so this is the peak, and one more choice point is above it
    rw [if_pos (full_iff.mpr full)]
    refine .refused ?_ (Nat.le_antisymm peak_le (Nat.le_trans full depth_le))
    exact Nat.lt_of_le_of_lt full (Nat.le_max_right ..)
  · rw [if_neg (full_iff.not.mpr full)]
    exact .allowed (x := .running _) (Nat.max_le.mpr ⟨peak_le, Nat.lt_of_not_le full⟩)

/-- Under a limit, going back comes to the same. -/
lemma Respects.backtrack (h : s.Respects limit) :
    Limited limit s.backtrack (s.withLimit limit).backtrack := by
  have newest : (s.withLimit limit).choices.points.back? = s.choices.points.back? := rfl
  have commutes : (s.withLimit limit).backtrack = s.backtrack.withLimit limit := by
    rw [State.backtrack, State.backtrack, ChoiceStack.pop, ChoiceStack.pop, newest]
    cases s.choices.points.back? with
    | none => rfl
    | some c => rfl
  rw [commutes]
  refine .allowed ?_
  rw [peak_backtrack]
  exact h.peak_le

/-- What a move does to the saved positions keeps to the limit. -/
lemma Respects.useMarks (h : s.Respects limit) (use : MarkUse) (next : Thread) :
    State.Respects { s.useMarks use with thread := next } limit := by
  have same := s.choices_useMarks use
  obtain ⟨unlimited, depth_le, peak_le⟩ := h
  rw [← same] at unlimited depth_le peak_le
  exact ⟨unlimited, depth_le, peak_le⟩

/-- Under a limit, every move comes to the same, unless it puts off an alternative that takes the peak above the
limit. -/
lemma Respects.perform (h : s.Respects limit) (set : limit ≠ 0) (move : Move) :
    Limited limit (s.perform move) ((s.withLimit limit).perform move) := by
  cases move with
  | fail => exact h.backtrack
  | accept use | corrupt use defect =>
    rw [State.perform, State.perform, withLimit_useMarks]
    exact .allowed (x := .halted _ _) (h.useMarks use s.thread).peak_le
  | goto use next =>
    rw [State.perform, State.perform, withLimit_useMarks]
    exact .allowed (x := .running _) (h.useMarks use next).peak_le
  | fork use next alternative =>
    rw [State.perform, State.perform, withLimit_useMarks]
    exact (h.useMarks use next).putOff set alternative

end State

namespace Search

variable (search : Search) {s t : State} {limit : Nat}

/-- The same holds of a step. -/
lemma step_limited (h : s.Respects limit) (set : limit ≠ 0) :
    Limited limit (search.step s) (search.step (s.withLimit limit)) := by
  cases at_pc : search.program.instr? s.thread.pc with
  | none =>
    rw [search.step_of_none at_pc, search.step_of_none (s := s.withLimit limit) at_pc]
    exact .allowed (x := .halted _ _) h.peak_le
  | some instr =>
    have at_pc' : search.program.instr? (s.withLimit limit).thread.pc = some instr := at_pc
    obtain ⟨unlimited, depth_le, peak_le⟩ := h
    have moves (log : Log) := State.Respects.perform (s := { s with steps := s.steps + 1, log })
      ⟨unlimited, depth_le, peak_le⟩ set
      (search.program.move search.text s.thread (s.marks.newest?.map Mark.pos) instr)
    simp only [step, stepBy, at_pc, at_pc']
    cases search.tracing with
    | false => exact moves s.log
    | true => exact moves (s.log.push (.step s.thread s.choices.depth instr))

variable {search}

/-- Within the same budget, a run that gets by with a limit ends in the same way under it, and any other run is
cut off there. -/
lemma run_limited {budget : Nat} {verdict : Verdict} (h : s.Respects limit) (set : limit ≠ 0)
    (run : search.run budget s = some (verdict, t)) :
    t.choices.peak ≤ limit ∧ search.run budget (s.withLimit limit) = some (verdict, t.withLimit limit) ∨
      limit < t.choices.peak ∧
        ∃ t', search.run budget (s.withLimit limit) = some (.error .choiceLimit, t') ∧
          t'.choices.peak = limit := by
  induction budget generalizing s with
  | zero => cases run
  | succ budget ih =>
    have limited := search.step_limited h set
    generalize step : search.step s = x at limited
    generalize step' : search.step (s.withLimit limit) = y at limited
    cases limited with
    | allowed peak_le =>
      cases x with
      | running next =>
        rw [run_of_running step] at run
        rw [run_of_running step']
        have limit_eq := search.limit_step s
        have depth_le := search.depth_le_peak_step h.depth_le
        rw [step] at limit_eq depth_le
        exact ih ⟨limit_eq.trans h.unlimited, depth_le, peak_le⟩ run
      | halted own last =>
        rw [run_of_halted step] at run
        cases run
        exact .inl ⟨peak_le, run_of_halted step' budget⟩
    | @refused next last above peak =>
      -- the peak of the unlimited run does not come down again
      rw [run_of_running step] at run
      refine .inr ⟨Nat.lt_of_lt_of_le above (atMost_of_run run).peak, last, ?_, peak⟩
      exact run_of_halted step' budget

end Search

namespace Matcher

/-- The same matcher with another limit for choice points. -/
def withLimit (m : Matcher) (limit : Nat) : Matcher :=
  { m with choices := m.choices.withLimit limit }

/-- What a limit makes of an outcome: nothing if the peak keeps to the limit, and a refusal otherwise. -/
structure CutsOff (limit : Nat) (o o' : Outcome) : Prop where
  kept : o.matcher.stats.peak ≤ limit → Agrees o' o
  refused : limit < o.matcher.stats.peak →
    o'.verdict = .error .choiceLimit ∧ o'.matcher.stats.peak = limit

variable {m m' : Matcher} {budget limit : Nat} {p : Program} {text : Text} {o : Outcome}

/-- A limit cuts a run off if the peak exceeds it, and lets it be otherwise. -/
lemma run_withLimit (unlimited : m.limit = 0) (set : limit ≠ 0) (run : m.run budget p text = some o) :
    ∃ o', (m.withLimit limit).run budget p text = some o' ∧ CutsOff limit o o' := by
  rw [Matcher.run, Option.map_eq_some_iff] at run
  obtain ⟨⟨verdict, t⟩, run, rfl⟩ := run
  have start : (State.start m.choices m.marks).Respects limit :=
    ⟨unlimited, Nat.le_refl _, Nat.zero_le _⟩
  obtain ⟨low, run'⟩ | ⟨high, t', run', peak⟩ := Search.run_limited start set run
  · refine ⟨_, Option.map_eq_some_iff.mpr ⟨_, run', rfl⟩, fun _ => ⟨rfl, rfl⟩, fun above => ?_⟩
    exact absurd low (Nat.not_le_of_lt above)
  · refine ⟨_, Option.map_eq_some_iff.mpr ⟨_, run', rfl⟩, fun below => ?_, fun _ => ⟨rfl, peak⟩⟩
    exact absurd high (Nat.not_lt_of_le below)

/-- A limit cuts a match off in the same way. -/
lemma test_withLimit (unlimited : m.limit = 0) (set : limit ≠ 0) (test : m.test budget p text = some o) :
    ∃ o', (m.withLimit limit).test budget p text = some o' ∧ CutsOff limit o o' := by
  have path : (m.withLimit limit).fastPath? p = m.fastPath? p := rfl
  rw [Matcher.test] at test ⊢
  rw [path]
  cases fast : m.fastPath? p with
  | some bytes =>
    -- a search of the text has no choice points
    rw [fast] at test
    cases test
    exact ⟨_, rfl, fun _ => ⟨rfl, rfl⟩, fun above => absurd above (Nat.not_lt_zero _)⟩
  | none =>
    rw [fast] at test
    exact run_withLimit unlimited set test

/-- Let a match without a limit come to a verdict. Under a limit it comes to the same one, with the same
counters, if it never has more choice points than the limit allows. Otherwise the limit ends it, with exactly so
many choice points. -/
theorem test_of_limit (unlimited : m.limit = 0) (limited : m'.limit ≠ 0)
    (fastPath : m.options.has .noFastPath = m'.options.has .noFastPath)
    (test : m.test budget p text = some o) :
    ∃ o', m'.test budget p text = some o' ∧
      (o.matcher.stats.peak ≤ m'.limit → o'.verdict = o.verdict ∧ o'.matcher.stats = o.matcher.stats) ∧
      (m'.limit < o.matcher.stats.peak →
        o'.verdict = .error .choiceLimit ∧ o'.matcher.stats.peak = m'.limit) := by
  obtain ⟨o₁, test₁, kept, refused⟩ := test_withLimit unlimited limited test
  -- what else may be different about the two matchers does not show
  have agrees : Option.Rel Agrees ((m.withLimit m'.limit).test budget p text) (m'.test budget p text) :=
    test_agrees rfl fastPath
  rw [test₁] at agrees
  generalize m'.test budget p text = x at agrees
  cases agrees with
  | @some _ o' same =>
    obtain ⟨verdict, stats⟩ := same
    refine ⟨o', rfl, fun below => ?_, fun above => ?_⟩
    · obtain ⟨verdict₁, stats₁⟩ := kept below
      exact ⟨verdict.symm.trans verdict₁, stats.symm.trans stats₁⟩
    · obtain ⟨verdict₁, peak₁⟩ := refused above
      exact ⟨verdict.symm.trans verdict₁, stats ▸ peak₁⟩

/-- A repetition that puts off a choice point for each of three bytes, under a limit of three and of two. -/
theorem test_of_limit_repetition :
    let p : Program :=
      ⟨#[.textStart false, .savePos, .anyByte false, .jumpIfAdvanced (-2), .textEnd, .accept], #[]⟩
    let text : Text := #[97, 97, 97]
    let m := Matcher.ofConfig ⟨0, .none⟩
    let m₃ := Matcher.ofConfig ⟨3, .trace⟩
    let m₂ := Matcher.ofConfig ⟨2, .trace⟩
    ∃ o, m.test 20 p text = some o ∧ o.verdict = .ok true ∧ o.matcher.stats.peak = 3 ∧
      (∃ o', m₃.test 20 p text = some o' ∧ o'.verdict = .ok true ∧
        o'.matcher.stats = o.matcher.stats) ∧
      ∃ o', m₂.test 20 p text = some o' ∧ o'.verdict = .error .choiceLimit ∧
        o'.matcher.stats.peak = 2 := by
  intro p text m m₃ m₂
  have found : (m.test 20 p text).map (fun o => (o.verdict, o.matcher.stats.peak)) = some (.ok true, 3) := by
    decide +kernel
  obtain ⟨o, test, answer⟩ := Option.map_eq_some_iff.mp found
  obtain ⟨verdict, peak⟩ := Prod.mk.inj answer
  have fastPath₃ : m.options.has .noFastPath = m₃.options.has .noFastPath := by decide
  have fastPath₂ : m.options.has .noFastPath = m₂.options.has .noFastPath := by decide
  have limited₃ : m₃.limit ≠ 0 := by decide
  have limited₂ : m₂.limit ≠ 0 := by decide
  refine ⟨o, test, verdict, peak, ?_, ?_⟩
  · obtain ⟨o', test', kept, _⟩ := test_of_limit rfl limited₃ fastPath₃ test
    obtain ⟨same, stats⟩ := kept (Nat.le_of_eq peak)
    exact ⟨o', test', same.trans verdict, stats⟩
  · obtain ⟨o', test', _, refused⟩ := test_of_limit rfl limited₂ fastPath₂ test
    obtain ⟨cut, full⟩ := refused (peak ▸ Nat.lt_succ_self 2)
    exact ⟨o', test', cut, full⟩

end Matcher

end PatternVM
