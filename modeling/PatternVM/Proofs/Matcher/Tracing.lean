import PatternVM.Proofs.Matcher.Isolation
import PatternVM.Proofs.Search.Bounds
import PatternVM.Proofs.Search.Counters

/-!
# Tracing

A matcher that traces makes the same search as one that does not, and says more about it. Two facts carry that.
Taking the lines of the trace out of the log commutes with every operation on a state, so it commutes with steps and
runs (`Search.run_untraced`). And no operation writes such a line but a step that performs an instruction, which
writes one (`Search.trace_step`).

The trace of a run is therefore the list of the instructions that it performs (`Search.performed`). Every step is
counted, also the one that finds no instruction to perform, so the number of lines tells how a run has ended.
-/

namespace PatternVM

/-- Whether it is reported that an instruction is performed. -/
def Event.isStep : Event → Bool
  | .step .. => true
  | _ => false

namespace Log

/-- The reports of instructions that are performed. -/
def trace (log : Log) : List Event := log.toList.filter Event.isStep

/-- A log with its trace taken out. -/
def untraced (log : Log) : Log := log.filter fun e => !e.isStep

end Log

/-- A state whose log has no trace. -/
def State.untraced (s : State) : State := { s with log := s.log.untraced }

/-- The same progress without the reports of steps. -/
def Progress.untraced : Progress → Progress
  | running s => .running s.untraced
  | halted verdict s => .halted verdict s.untraced

namespace Search

/-- What a traced step reports of the instruction that it performs. -/
def performs? (search : Search) (s : State) : Option Event :=
  (search.program.instr? s.thread.pc).map fun instr => .step s.thread s.choices.depth instr

/-- The instructions that a run performs, each with its thread and the number of choice points. -/
def performed (search : Search) : Nat → State → List Event
  | 0, _ => []
  | budget + 1, s =>
    (search.performs? s).toList ++
      match search.step s with
      | .running t => search.performed budget t
      | .halted _ _ => []

end Search

/-- Neither the stack of choice points nor a line of the trace shows more of them than the peak. -/
structure State.BelowPeak (s : State) : Prop where
  depth : s.choices.depth ≤ s.choices.peak
  lines {thread depth instr} : .step thread depth instr ∈ s.log.trace → depth ≤ s.choices.peak

/-- The run has ended because control has got behind the last instruction. -/
def Verdict.PastEnd (verdict : Verdict) : Prop := ∃ pc, verdict = .error (.corrupt pc .pastEnd)

/-- The same matcher with or without the option that every step is reported. -/
def Matcher.withTracing (m : Matcher) (on : Bool) : Matcher := { m with options := m.options.set .trace on }

/-! ## Logs -/

namespace Log

variable {log : Log} {e : Event}

/-- The report of a step is a line of the trace. -/
lemma trace_push_of_step (step : e.isStep) : Log.trace (log.push e) = log.trace ++ [e] := by
  rw [trace, Array.toList_push, List.filter_append, List.filter_cons_of_pos step]
  rfl

/-- Other reports are no lines of the trace. -/
lemma trace_push_of_not_step (other : e.isStep = false) : Log.trace (log.push e) = log.trace := by
  rw [trace, Array.toList_push, List.filter_append, List.filter_cons_of_neg (Bool.eq_false_iff.mp other)]
  exact List.append_nil _

/-- Without the reports of steps one more of them makes no difference. -/
lemma untraced_push_of_step (step : e.isStep) : Log.untraced (log.push e) = log.untraced := by
  rw [untraced, Array.filter_push, if_neg (by simp [step])]
  rfl

/-- Other reports stay. -/
lemma untraced_push_of_not_step (other : e.isStep = false) :
    Log.untraced (log.push e) = log.untraced.push e := by
  rw [untraced, Array.filter_push, if_pos (by simp [other])]
  rfl

/-- The report of a growth is no line of the trace. -/
lemma trace_addGrowth (store : Store) (before after : Nat) :
    (log.addGrowth store before after).trace = log.trace := by
  rw [addGrowth]
  split
  · rfl
  · exact trace_push_of_not_step rfl

/-- The report of a growth stays. -/
lemma untraced_addGrowth (store : Store) (before after : Nat) :
    (log.addGrowth store before after).untraced = log.untraced.addGrowth store before after := by
  rw [addGrowth, addGrowth]
  split
  · rfl
  · exact untraced_push_of_not_step rfl

end Log

/-! ## One step -/

namespace State

variable (s : State)

/-- What a move does to the saved positions does not depend on the reports of steps. -/
lemma untraced_useMarks (use : MarkUse) : (s.useMarks use).untraced = s.untraced.useMarks use := by
  cases use with
  | keep => rfl
  | save pos =>
    have log := @Log.untraced_addGrowth s.log .marks s.marks.capacity (s.marks.push pos s.choices.depth).capacity
    exact congrArg (fun log => { s with marks := s.marks.push pos s.choices.depth, log }) log
  | drop => rfl

/-- Putting an alternative off does not depend on the reports of steps. -/
lemma untraced_putOff (alternative : Thread) :
    (s.putOff alternative).untraced = s.untraced.putOff alternative := by
  have choices : s.untraced.choices = s.choices := rfl
  rw [putOff, putOff, ChoiceStack.push, ChoiceStack.push, choices]
  by_cases full : s.choices.isFull
  · rw [if_pos full, if_pos full]
    rfl
  · rw [if_neg full, if_neg full]
    simp only [Progress.untraced, untraced, Log.untraced_addGrowth]

/-- Going back does not depend on the reports of steps. -/
lemma untraced_backtrack : s.backtrack.untraced = s.untraced.backtrack := by
  have choices : s.untraced.choices = s.choices := rfl
  rw [backtrack, backtrack, ChoiceStack.pop, ChoiceStack.pop, choices]
  cases s.choices.points.back? with
  | none => rfl
  | some c => rfl

/-- No move depends on the reports of steps. -/
lemma untraced_perform (move : Move) : (s.perform move).untraced = s.untraced.perform move := by
  cases move with
  | fail => exact s.untraced_backtrack
  | accept use => exact congrArg (Progress.halted _) (s.untraced_useMarks use)
  | corrupt use defect => exact congrArg (Progress.halted _) (s.untraced_useMarks use)
  | goto use next =>
    have used := congrArg (fun t : State => { t with thread := next }) (s.untraced_useMarks use)
    exact congrArg Progress.running used
  | fork use next alternative =>
    have used := congrArg (fun t : State => { t with thread := next }) (s.untraced_useMarks use)
    have put_off := congrArg (fun t : State => t.putOff alternative) used
    exact (untraced_putOff { s.useMarks use with thread := next } alternative).trans put_off

/-- What a move does to the saved positions adds no line to the trace. -/
lemma trace_useMarks (use : MarkUse) : (s.useMarks use).log.trace = s.log.trace := by
  cases use with
  | keep => rfl
  | save pos => exact Log.trace_addGrowth ..
  | drop => rfl

/-- Putting an alternative off adds no line to the trace. -/
lemma trace_putOff (alternative : Thread) : (s.putOff alternative).state.log.trace = s.log.trace := by
  rw [putOff, ChoiceStack.push]
  by_cases full : s.choices.isFull
  · rw [if_pos full]
    rfl
  · rw [if_neg full]
    exact Log.trace_addGrowth ..

/-- Going back adds no line to the trace. -/
lemma trace_backtrack : s.backtrack.state.log.trace = s.log.trace := by
  rw [backtrack, ChoiceStack.pop]
  cases s.choices.points.back? with
  | none => rfl
  | some c => rfl

/-- Carrying a move out adds no line to the trace. -/
lemma trace_perform (move : Move) : (s.perform move).state.log.trace = s.log.trace := by
  refine perform_keeps (I := fun t => t.log.trace = s.log.trace) rfl ?_ ?_ ?_ ?_ move
  · exact fun t use same => (t.trace_useMarks use).trans same
  · exact fun t next same => same
  · exact fun t alternative same => (t.trace_putOff alternative).trans same
  · exact fun t same => t.trace_backtrack.trans same

/-- Carrying a move out counts no step. -/
lemma steps_perform (move : Move) : (s.perform move).state.steps = s.steps := by
  refine perform_keeps (I := fun t => t.steps = s.steps) rfl ?_ ?_ ?_ ?_ move
  · exact fun t use same => (t.steps_useMarks use).trans same
  · exact fun t next same => same
  · intro t alternative same
    obtain ⟨choices, log, state⟩ := t.exists_state_putOff alternative
    rw [state]
    exact same
  · intro t same
    rw [backtrack, ChoiceStack.pop]
    cases t.choices.points.back? with
    | none => exact same
    | some c => exact same

end State

namespace Search

variable {search : Search} {p : Program} {text : Text} {s t : State} {budget : Nat} {verdict : Verdict}

/-- A traced step without its line is the step that is not traced. -/
lemma step_untraced (s : State) : (step ⟨p, text, true⟩ s).untraced = step ⟨p, text, false⟩ s.untraced := by
  have thread : s.untraced.thread = s.thread := rfl
  simp only [step, stepBy, thread]
  cases p.instr? s.thread.pc with
  | none => rfl
  | some instr =>
    have reported : (State.report { s with steps := s.steps + 1 } instr).untraced =
        { s.untraced with steps := s.steps + 1 } := by
      have log : Log.untraced (s.log.push (.step s.thread s.choices.depth instr)) = s.log.untraced :=
        Log.untraced_push_of_step rfl
      exact congrArg (fun log => { s with steps := s.steps + 1, log }) log
    simp only [if_true, Bool.false_eq_true, if_false]
    rw [State.untraced_perform, reported]
    rfl

/-- A traced run without its trace is the run that is not traced. -/
lemma run_untraced (budget : Nat) (s : State) :
    (run ⟨p, text, true⟩ budget s).map (fun r => (r.1, r.2.untraced)) = run ⟨p, text, false⟩ budget s.untraced := by
  induction budget generalizing s with
  | zero => rfl
  | succ budget ih =>
    have same := @step_untraced p text s
    cases step : Search.step ⟨p, text, true⟩ s with
    | running t =>
      rw [step] at same
      rw [run_of_running step, run_of_running same.symm]
      exact ih t
    | halted verdict t =>
      rw [step] at same
      rw [run_of_halted step, run_of_halted same.symm]
      rfl

/-- Every step is counted. -/
lemma steps_step (search : Search) (s : State) : (search.step s).state.steps = s.steps + 1 := by
  refine search.stepBy_keeps (I := fun t => t.steps = s.steps + 1) (fun log => rfl) fun t move same => ?_
  exact (t.steps_perform move).trans same

/-- A traced step adds the line of the instruction that it performs to the trace. -/
lemma trace_step (tracing : search.tracing) (s : State) :
    (search.step s).state.log.trace = s.log.trace ++ (search.performs? s).toList := by
  rw [step, stepBy, performs?]
  cases search.program.instr? s.thread.pc with
  | none => exact (List.append_nil _).symm
  | some instr =>
    simp only [tracing, if_true]
    rw [State.trace_perform]
    exact Log.trace_push_of_step rfl

/-- A search goes on only by performing an instruction. -/
lemma exists_performs?_of_running (running : search.step s = .running t) : ∃ e, search.performs? s = some e := by
  cases at_pc : search.program.instr? s.thread.pc with
  | none =>
    rw [search.step_of_none at_pc] at running
    cases running
  | some instr => exact ⟨_, congrArg (Option.map _) at_pc⟩

/-- A step that finds control behind the last instruction is one that performs none. -/
lemma pastEnd_iff (sound : s.Sound) (within : s.thread.pos ≤ search.text.size)
    (halts : search.step s = .halted verdict t) : verdict.PastEnd ↔ search.performs? s = none := by
  rw [performs?, Option.map_eq_none_iff]
  constructor
  · rintro ⟨pc, rfl⟩
    have visit := visit_of_corrupt sound halts
    have gives := Program.gives_visit (p := search.program) (c := s.here) within
    rw [visit] at gives
    cases gives with
    | pastEnd none => exact none
    | broken _ breaks =>
      -- an instruction that is there may be defective, but it never reports this
      cases breaks with
      | noTarget _ refused => cases Program.target_eq_error refused
  · intro none
    rw [search.step_of_none none] at halts
    cases halts
    exact ⟨_, rfl⟩

/-- A run performs what its first step performs, and then what the run from there performs. -/
lemma performed_of_running (running : search.step s = .running t) (budget : Nat) :
    search.performed (budget + 1) s = (search.performs? s).toList ++ search.performed budget t := by
  rw [performed, running]

/-- A run that ends with its first step performs no more than that. -/
lemma performed_of_halted (halts : search.step s = .halted verdict t) (budget : Nat) :
    search.performed (budget + 1) s = (search.performs? s).toList := by
  rw [performed, halts]
  exact List.append_nil _

/-- A traced run adds the lines of the instructions that it performs to the trace. -/
lemma trace_of_run (tracing : search.tracing) (run : search.run budget s = some (verdict, t)) :
    t.log.trace = s.log.trace ++ search.performed budget s := by
  induction budget generalizing s with
  | zero => cases run
  | succ budget ih =>
    have line := trace_step tracing s
    cases step : search.step s with
    | running next =>
      rw [run_of_running step] at run
      rw [step] at line
      calc t.log.trace
        _ = next.log.trace ++ search.performed budget next := ih run
        _ = s.log.trace ++ (search.performs? s).toList ++ search.performed budget next :=
          congrArg (· ++ search.performed budget next) line
        _ = s.log.trace ++ search.performed (budget + 1) s := by
          rw [performed_of_running step, List.append_assoc]
    | halted own last =>
      rw [run_of_halted step] at run
      cases run
      rw [step] at line
      rw [performed_of_halted step]
      exact line

/-- A run counts the instructions that it performs, and one step more if it has found control behind the last one. -/
lemma steps_of_run (sound : s.Sound) (confined : s.Confined search.program search.text)
    (run : search.run budget s = some (verdict, t)) :
    (verdict.PastEnd → t.steps = s.steps + (search.performed budget s).length + 1) ∧
      (¬ verdict.PastEnd → t.steps = s.steps + (search.performed budget s).length) := by
  induction budget generalizing s with
  | zero => cases run
  | succ budget ih =>
    have counted := search.steps_step s
    cases step : search.step s with
    | running next =>
      obtain ⟨e, performs⟩ := exists_performs?_of_running step
      have length : (search.performed (budget + 1) s).length = (search.performed budget next).length + 1 := by
        rw [performed_of_running step, performs]
        rfl
      obtain ⟨sound', confined'⟩ := search.inBounds_step sound confined
      rw [step] at counted sound' confined'
      rw [run_of_running step] at run
      have steps : next.steps = s.steps + 1 := counted
      obtain ⟨past, inside⟩ := ih (s := next) sound' confined' run
      rw [steps] at past inside
      rw [length]
      refine ⟨fun ends => ?_, fun ends => ?_⟩
      · have total := past ends
        omega
      · have total := inside ends
        omega
    | halted own last =>
      have past := pastEnd_iff sound confined.pos_le step
      rw [run_of_halted step] at run
      cases run
      rw [step] at counted
      rw [performed_of_halted step]
      refine ⟨fun ends => ?_, fun ends => ?_⟩
      · rw [past.mp ends]
        exact counted
      · obtain ⟨e, performs⟩ := Option.ne_none_iff_exists'.mp fun none => ends (past.mpr none)
        rw [performs]
        exact counted

/-- A traced step shows no more choice points than there are, and the peak never goes down. -/
lemma belowPeak_step (tracing : search.tracing) (below : s.BelowPeak) : (search.step s).state.BelowPeak := by
  obtain ⟨depth, lines⟩ := below
  have grows := (search.atMost_step s).peak
  refine ⟨search.depth_le_peak_step depth, fun {thread depth instr} mem => ?_⟩
  rw [trace_step tracing s] at mem
  obtain before | new := List.mem_append.mp mem
  · exact Nat.le_trans (lines before) grows
  · obtain ⟨instr, _, line⟩ := Option.map_eq_some_iff.mp (Option.mem_toList.mp new)
    cases line
    exact Nat.le_trans depth grows

end Search

/-! ## Whole matches -/

/-- Switching tracing off leaves the choice of the fast path as it is. -/
lemma Options.noFastPath_set_trace (o : Options) : (o.set .trace false).has .noFastPath = o.has .noFastPath := by
  simp only [set, has, Bool.false_eq_true, if_false, UInt32.and_assoc]
  rfl

namespace Matcher

variable {m m' : Matcher} {budget : Nat} {p : Program} {text : Text} {o o' : Outcome}

/-- Two matches come to the same verdict and the same counters, and they report the same apart from the trace. -/
def AgreesButTrace (o o' : Outcome) : Prop := Agrees o o' ∧ o.log.untraced = o'.log

/-- Matchers that differ in nothing but tracing start from the same state. -/
lemma start_eq (same : m.withTracing false = m'.withTracing false) :
    State.start m.choices m.marks = State.start m'.choices m'.marks := by
  have choices : m.choices = m'.choices := (congrArg Matcher.choices same :)
  have marks : m.marks = m'.marks := (congrArg Matcher.marks same :)
  rw [choices, marks]

/-- Matchers that differ in tracing only take the fast path for the same programs. -/
lemma fastPath?_eq (same : m.withTracing false = m'.withTracing false) : m.fastPath? p = m'.fastPath? p := by
  have options := congrArg (fun m : Matcher => m.options.has .noFastPath) same
  simp only [withTracing, Options.noFastPath_set_trace] at options
  rw [fastPath?, fastPath?, options]

/-- Matchers that differ in tracing only come to the same outcome when they run a program, but for the trace. -/
lemma run_agreesButTrace (same : m.withTracing false = m'.withTracing false) (traced : m.options.has .trace)
    (silent : m'.options.has .trace = false) :
    Option.Rel AgreesButTrace (m.run budget p text) (m'.run budget p text) := by
  have start : (State.start m.choices m.marks).untraced = State.start m'.choices m'.marks := by
    have log := @Log.untraced_addGrowth #[] .marks m.marks.capacity m.marks.reset.capacity
    rw [← start_eq same]
    exact congrArg (fun log => { State.start m.choices m.marks with log }) log
  have searched : (Search.run ⟨p, text, true⟩ budget (.start m.choices m.marks)).map (fun r => (r.1, r.2.untraced)) =
      Search.run ⟨p, text, false⟩ budget (State.start m.choices m.marks).untraced := Search.run_untraced budget _
  rw [start] at searched
  rw [run, run, traced, silent, ← searched]
  cases Search.run ⟨p, text, true⟩ budget (.start m.choices m.marks) with
  | none => exact .none
  | some r =>
    obtain ⟨verdict, t⟩ := r
    refine .some ⟨⟨rfl, rfl⟩, ?_⟩
    cases verdict with
    | ok found => exact Log.untraced_push_of_not_step rfl
    | error fault => exact Log.untraced_push_of_not_step rfl

/-- So they do when they match it. -/
lemma test_agreesButTrace (same : m.withTracing false = m'.withTracing false) (traced : m.options.has .trace)
    (silent : m'.options.has .trace = false) :
    Option.Rel AgreesButTrace (m.test budget p text) (m'.test budget p text) := by
  rw [Matcher.test, Matcher.test, fastPath?_eq same]
  cases m'.fastPath? p with
  | none => exact run_agreesButTrace same traced silent
  | some bytes => exact .some ⟨⟨rfl, rfl⟩, rfl⟩

/-- A traced match that runs its program reports the instructions that it performs, and counts them. -/
lemma trace_of_general (general : m.fastPath? p = none) (traced : m.options.has .trace)
    (test : m.test budget p text = some o) :
    o.log.trace = (m.search p text).performed budget (.start m.choices m.marks) ∧
      (o.verdict.PastEnd → o.matcher.stats.steps = o.log.trace.length + 1) ∧
      (¬ o.verdict.PastEnd → o.matcher.stats.steps = o.log.trace.length) ∧
      ∀ thread depth instr, .step thread depth instr ∈ o.log.trace → depth ≤ o.matcher.stats.peak := by
  rw [Matcher.test, general] at test
  obtain ⟨⟨verdict, t⟩, run, rfl⟩ := Option.map_eq_some_iff.mp test
  have empty : (State.start m.choices m.marks).log.trace = [] := Log.trace_addGrowth ..
  have last : Log.trace (t.log.push (.ofVerdict t verdict)) = t.log.trace := by
    cases verdict with
    | ok found => exact Log.trace_push_of_not_step rfl
    | error fault => exact Log.trace_push_of_not_step rfl
  have lines := Search.trace_of_run traced run
  rw [empty, List.nil_append] at lines
  obtain ⟨sound, _⟩ := sound_start m.choices m.marks
  have confined : (State.start m.choices m.marks).Confined p text :=
    ⟨Nat.zero_le _, Nat.zero_le _, fun mem => absurd mem (Array.not_mem_empty _)⟩
  obtain ⟨past, inside⟩ := Search.steps_of_run sound confined run
  have none_yet : (State.start m.choices m.marks).steps = 0 := rfl
  rw [none_yet, Nat.zero_add, ← lines] at past inside
  have start : (State.start m.choices m.marks).BelowPeak := ⟨Nat.le_refl _, by simp [empty]⟩
  have below : t.BelowPeak := Search.run_keeps run (fun _ => Search.belowPeak_step traced) start
  simp only [last]
  exact ⟨lines, past, inside, fun _ _ _ => below.lines⟩

/-- Of two matchers that differ in nothing but tracing, both decide a match or neither does, and tracing adds its trace
to the log and changes nothing else. The trace consists of the instructions that are performed, so it has a line for
each step but one that finds none, and no line shows more choice points than the peak. -/
theorem trace_of_test (same : m.withTracing false = m'.withTracing false) (traced : m.options.has .trace)
    (silent : m'.options.has .trace = false) (p : Program) (text : Text) :
    (∀ budget, (m.test budget p text).isSome = (m'.test budget p text).isSome) ∧
      ∀ budget budget' o o', m.test budget p text = some o → m'.test budget' p text = some o' →
        (o.verdict = o'.verdict ∧ o.matcher.stats = o'.matcher.stats ∧ o.log.untraced = o'.log) ∧
          (o.matcher.stats.steps = o.log.trace.length + 1 ↔ o.verdict.PastEnd) ∧
          (o.matcher.stats.steps = o.log.trace.length ↔ ¬ o.verdict.PastEnd) ∧
          (∀ thread depth instr, .step thread depth instr ∈ o.log → depth ≤ o.matcher.stats.peak) ∧
          (m.fastPath? p = none →
            o.log.trace = (m.search p text).performed budget (.start m.choices m.marks)) := by
  have agrees (budget) : Option.Rel AgreesButTrace (m.test budget p text) (m'.test budget p text) :=
    test_agreesButTrace same traced silent
  refine ⟨fun budget => ?_, fun budget budget' o o' test test' => ⟨?_, ?_⟩⟩
  · have rel := agrees budget
    generalize m.test budget p text = x at rel ⊢
    generalize m'.test budget p text = x' at rel ⊢
    cases rel with
    | none => rfl
    | some => rfl
  · -- both come to their verdicts within the larger budget
    have rel := agrees (max budget budget')
    rw [test_mono test (Nat.le_max_left ..), test_mono test' (Nat.le_max_right ..)] at rel
    cases rel with
    | some same =>
      obtain ⟨⟨verdict, stats⟩, log⟩ := same
      exact ⟨verdict, stats, log⟩
  · have mem_trace {thread depth instr} (mem : .step thread depth instr ∈ o.log) :
        .step thread depth instr ∈ o.log.trace :=
      List.mem_filter.mpr ⟨Array.mem_toList_iff.mpr mem, rfl⟩
    cases path : m.fastPath? p with
    | none =>
      obtain ⟨lines, past, inside, depths⟩ := trace_of_general path traced test
      refine ⟨⟨fun counted => ?_, past⟩, ⟨fun counted ends => ?_, inside⟩,
        fun thread depth instr mem => depths _ _ _ (mem_trace mem), fun _ => lines⟩
      · by_contra ends
        have := inside ends
        omega
      · have := past ends
        omega
    | some bytes =>
      -- the program is not run, so there is neither a step nor a line
      rw [Matcher.test, path] at test
      cases test
      have answered : ¬ (m.scan bytes text).verdict.PastEnd := by
        rintro ⟨pc, ends⟩
        cases ends
      refine ⟨iff_of_false (Nat.zero_ne_one ·) answered, iff_of_true rfl answered, fun thread depth instr mem => ?_, ?_⟩
      · cases mem_trace mem
      · intro runs
        cases runs

/-- A program that gets behind its end on the second way of a branch. The lines of the trace are one less than the
steps. -/
theorem trace_of_test_pastEnd :
    let p : Program := ⟨#[.branchFirst 2, .literal [98] false, .literal [97] false], #[]⟩
    let m := Matcher.ofConfig ⟨0, ⟨5⟩⟩
    let m' := Matcher.ofConfig ⟨0, ⟨4⟩⟩
    m.withTracing false = m'.withTracing false ∧ m.options.has .trace ∧ m'.options.has .trace = false ∧
      ∃ o o', m.test 9 p #[97] = some o ∧ m'.test 8 p #[97] = some o' ∧
        o.verdict = .error (.corrupt 3 .pastEnd) ∧ o.log.untraced = o'.log ∧
        o.matcher.stats.steps = o.log.trace.length + 1 ∧
        o.log.trace = (m.search p #[97]).performed 9 (.start m.choices m.marks) := by
  intro p m m'
  have options : Options.set ⟨5⟩ .trace false = Options.set ⟨4⟩ .trace false := by decide
  have same : m.withTracing false = m'.withTracing false := congrArg (Matcher.mk (.ofLimit 0) .empty · .zero) options
  have traced : m.options.has .trace := by decide
  have silent : m'.options.has .trace = false := by decide
  have past : (m.test 9 p #[97]).map Outcome.verdict = some (.error (.corrupt 3 .pastEnd)) := by decide +kernel
  obtain ⟨o, test, verdict⟩ := Option.map_eq_some_iff.mp past
  obtain ⟨halts, agree⟩ := trace_of_test same traced silent p #[97]
  obtain ⟨o', test'⟩ : ∃ o', m'.test 8 p #[97] = some o' := by
    rw [← Option.isSome_iff_exists, ← halts]
    decide +kernel
  obtain ⟨⟨_, _, log⟩, ends, _, _, lines⟩ := agree 9 8 o o' test test'
  exact ⟨same, traced, silent, o, o', test, test', verdict, log, ends.mpr ⟨3, verdict⟩, lines (by decide)⟩

end Matcher

end PatternVM
