import PatternVM.Matcher.Pool
import PatternVM.Proofs.Search.Lockstep
import PatternVM.Proofs.Search.Reached

/-!
# Isolation

What a matcher has done before does not show in what it does next. It may have been made a moment ago, have
ended its last match in the middle of a search, or have been lent by a pool: the verdict and the counters of a
match depend on the program, the text, the limit, and on whether the fast path is open (`Matcher.test_isolated`).

What a reset leaves over is room on the stacks, so any two searches for the same program in the same text start
in states that differ in nothing else, and run in lockstep.
-/

namespace PatternVM

/-! ## Matches keep the configuration -/

namespace State

variable (s : State)

/-- Putting an alternative off does not change the limit. -/
lemma limit_putOff (alternative : Thread) : (s.putOff alternative).state.choices.limit = s.choices.limit := by
  rw [putOff, ChoiceStack.push]
  by_cases full : s.choices.isFull
  · rw [if_pos full]
    rfl
  · rw [if_neg full]
    rfl

/-- Going back does not change the limit. -/
lemma limit_backtrack : s.backtrack.state.choices.limit = s.choices.limit := by
  rw [backtrack, ChoiceStack.pop]
  cases s.choices.points.back? with
  | none => rfl
  | some c => rfl

/-- No move changes the limit for choice points. -/
lemma limit_perform (move : Move) : (s.perform move).state.choices.limit = s.choices.limit := by
  refine perform_keeps (I := fun t => t.choices.limit = s.choices.limit) rfl ?_ ?_ ?_ ?_ move
  · intro t use same
    rw [choices_useMarks]
    exact same
  · exact fun t next same => same
  · exact fun t alternative same => (t.limit_putOff alternative).trans same
  · exact fun t same => t.limit_backtrack.trans same

end State

/-- No step changes the limit for choice points. -/
lemma Search.limit_step (search : Search) (s : State) :
    (search.step s).state.choices.limit = s.choices.limit := by
  refine search.stepBy_keeps (I := fun t => t.choices.limit = s.choices.limit) (fun log => rfl) fun t move same => ?_
  exact (t.limit_perform move).trans same

namespace Matcher

variable {m m' n n' : Matcher} {budget budget' : Nat} {p : Program} {text : Text} {o o' : Outcome}

/-- A match leaves the configuration of its matcher as it is. -/
lemma config_of_test (test : m.test budget p text = some o) : o.matcher.config = m.config := by
  rw [Matcher.test] at test
  split at test
  · cases test
    rfl
  · rw [run, Option.map_eq_some_iff] at test
    obtain ⟨⟨verdict, t⟩, run, rfl⟩ := test
    have kept := Search.run_keeps (I := fun t => t.choices.limit = m.limit) run
      (fun s limit => (Search.limit_step _ s).trans limit) rfl
    exact congrArg (Config.mk · m.options) kept

/-- Some matches, each of which has come to a verdict, make `n` of `m`. -/
def Becomes : Matcher → Matcher → Prop :=
  Relation.ReflTransGen fun m n => ∃ budget p text o, m.test budget p text = some o ∧ o.matcher = n

/-- Whatever a matcher has become by matches, its configuration is the same. -/
lemma Becomes.config (before : m.Becomes n) : n.config = m.config := by
  induction before with
  | refl => rfl
  | tail _ last ih =>
    obtain ⟨budget, p, text, o, test, rfl⟩ := last
    exact (config_of_test test).trans ih

/-! ## The next match -/

/-- Two outcomes with the same verdict and the same counters. -/
def Agrees (o o' : Outcome) : Prop := o.verdict = o'.verdict ∧ o.matcher.stats = o'.matcher.stats

/-- What a reset leaves over is the room on the stacks. -/
lemma start_alike (limit : m.limit = m'.limit) :
    (State.start m.choices m.marks).Alike (State.start m'.choices m'.marks) := by
  rw [Matcher.limit, Matcher.limit] at limit
  simp only [State.Alike, State.bare, State.start, ChoiceStack.bare, ChoiceStack.reset, limit]
  rfl

/-- Matchers with the same limit give the same answers with the same counters when they run a program. -/
lemma run_agrees (limit : m.limit = m'.limit) :
    Option.Rel Agrees (m.run budget p text) (m'.run budget p text) := by
  have lockstep := Search.run_rel (fun s t alike => State.Alike.step alike p text (m.options.has .trace)
    (m'.options.has .trace)) (start_alike limit) budget
  rw [run, run]
  generalize Search.run _ budget _ = r at lockstep ⊢
  generalize Search.run _ budget _ = r' at lockstep ⊢
  cases lockstep with
  | none => exact .none
  | some same =>
    obtain ⟨verdict, alike⟩ := same
    exact .some ⟨verdict, alike.map State.stats⟩

/-- So they do when they match it, if they also agree on whether they may answer without running it. -/
lemma test_agrees (limit : m.limit = m'.limit)
    (fastPath : m.options.has .noFastPath = m'.options.has .noFastPath) :
    Option.Rel Agrees (m.test budget p text) (m'.test budget p text) := by
  have path : m.fastPath? p = m'.fastPath? p := by rw [fastPath?, fastPath?, fastPath]
  rw [Matcher.test, Matcher.test, path]
  cases m'.fastPath? p with
  | none => exact run_agrees limit
  | some bytes => exact .some ⟨rfl, rfl⟩

/-- A budget that leads to an outcome may be enlarged. -/
lemma test_mono (test : m.test budget p text = some o) (le : budget ≤ budget') :
    m.test budget' p text = some o := by
  rw [Matcher.test] at test ⊢
  split at test
  · exact test
  · rw [run, Option.map_eq_some_iff] at test ⊢
    obtain ⟨r, run, outcome⟩ := test
    exact ⟨r, Search.run_mono run le, outcome⟩

/-- Two matchers with the same limit, both with the fast path or both without it, answer a match alike and
count the same, whatever their other options are, and whatever either of them has done before. Either may be
one that a pool has lent. -/
theorem test_isolated (limit : m.limit = m'.limit)
    (fastPath : m.options.has .noFastPath = m'.options.has .noFastPath) (before : m.Becomes n)
    (before' : m'.Becomes n') (p : Program) (text : Text) :
    (∀ budget, (n.test budget p text).isSome = (n'.test budget p text).isSome) ∧
      ∀ budget budget' o o', n.test budget p text = some o → n'.test budget' p text = some o' →
        o.verdict = o'.verdict ∧ o.matcher.stats = o'.matcher.stats := by
  have config := before.config
  have config' := before'.config
  have same_limit : n.limit = n'.limit := by
    rw [show n.limit = m.limit from congrArg Config.limit config, limit]
    exact (congrArg Config.limit config').symm
  have same_path : n.options.has .noFastPath = n'.options.has .noFastPath := by
    rw [show n.options = m.options from congrArg Config.options config, fastPath]
    exact (congrArg (·.options.has .noFastPath) config').symm
  have agrees (budget) : Option.Rel Agrees (n.test budget p text) (n'.test budget p text) :=
    test_agrees same_limit same_path
  refine ⟨fun budget => ?_, fun budget budget' o o' test test' => ?_⟩
  · have rel := agrees budget
    generalize n.test budget p text = x at rel ⊢
    generalize n'.test budget p text = x' at rel ⊢
    cases rel with
    | none => rfl
    | some => rfl
  · -- both come to their verdicts within the larger budget
    have rel := agrees (max budget budget')
    rw [test_mono test (Nat.le_max_left ..), test_mono test' (Nat.le_max_right ..)] at rel
    cases rel with
    | some same => exact same

/-- A new matcher that reports every step, and one with an unknown option that a pool has lent and that has run
into its limit. -/
theorem test_isolated_pool :
    let p : Program := ⟨#[.branchFirst 3, .literal [98] false, .accept, .literal [97] false, .accept], #[]⟩
    let q : Program := ⟨#[.savePos, .branchFirst 2, .branchFirst 2, .jump 1, .jump (-1)], #[]⟩
    let m := Matcher.ofConfig ⟨1, .trace⟩
    let m' := (Pool.ofTemplate ⟨1, ⟨8⟩⟩).take.1
    ∃ o, m'.test 10 q #[97] = some o ∧ o.verdict = .error .choiceLimit ∧
      ∃ o₁ o₂, m.test 10 p #[97] = some o₁ ∧ o.matcher.test 20 p #[97] = some o₂ ∧ o₁.verdict = .ok true ∧
        o₁.verdict = o₂.verdict ∧ o₁.matcher.stats = o₂.matcher.stats := by
  intro p q m m'
  have refused : (m'.test 10 q #[97]).map Outcome.verdict = some (.error .choiceLimit) := by decide +kernel
  have found : (m.test 10 p #[97]).map Outcome.verdict = some (.ok true) := by decide +kernel
  obtain ⟨o, test, verdict⟩ := Option.map_eq_some_iff.mp refused
  obtain ⟨o₁, test₁, verdict₁⟩ := Option.map_eq_some_iff.mp found
  have before : m'.Becomes o.matcher := .single ⟨10, q, #[97], o, test, rfl⟩
  have limit : m.limit = m'.limit := rfl
  have fastPath : m.options.has .noFastPath = m'.options.has .noFastPath := by decide +kernel
  obtain ⟨halts, same⟩ := test_isolated limit fastPath .refl before p #[97]
  -- the lent matcher decides the match as well, and it may be given a larger budget
  obtain ⟨o₂, test₂⟩ : ∃ o₂, o.matcher.test 10 p #[97] = some o₂ := by
    rw [← Option.isSome_iff_exists, ← halts, test₁]
    rfl
  have test₂' := test_mono test₂ (show 10 ≤ 20 by omega)
  exact ⟨o, test, verdict, o₁, o₂, test₁, test₂', verdict₁, same 10 20 o₁ o₂ test₁ test₂'⟩

end Matcher

end PatternVM
