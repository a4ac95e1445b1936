import PatternVM.Machine.Event
import PatternVM.Machine.Move

/-!
# Running a search

A search performs the moves of one thread at a time. Alternatives go onto the stack of choice points; when
the thread fails, the newest of them is taken up, together with the positions that were saved when it was
put off. The search ends when a thread accepts, when no alternative is left, or with a fault.

A program may run for ever, so `run` is given a number of steps that it must not exceed.
-/

namespace PatternVM

/-- The answer of a search, or what kept it from one. -/
abbrev Verdict := Except Fault Bool

/-- What is searched, what for, and whether every step is reported. -/
structure Search where
  program : Program
  text : Text
  tracing : Bool

/-- A search under way. -/
structure State where
  thread : Thread
  choices : ChoiceStack
  marks : MarkStack
  steps : Nat
  backtracks : Nat
  log : Log

/-- A state to go on from, or the verdict and the last state. -/
inductive Progress
  | running (s : State)
  | halted (verdict : Verdict) (s : State)

namespace State

/-- The state before the first step, on stacks whose contents are forgotten and whose storage is kept. -/
def start (choices : ChoiceStack) (marks : MarkStack) : State :=
  let before := marks.capacity
  let marks := marks.reset
  { thread := .start
    choices := choices.reset
    marks
    steps := 0
    backtracks := 0
    log := Log.addGrowth #[] .marks before marks.capacity }

/-- Does to the saved positions what a move asks for. -/
def useMarks (s : State) : MarkUse → State
  | .keep => s
  | .save pos =>
    let before := s.marks.capacity
    let marks := s.marks.push pos s.choices.depth
    { s with marks, log := s.log.addGrowth .marks before marks.capacity }
  | .drop => { s with marks := s.marks.drop s.choices.depth }

/-- Puts an alternative off, together with the present saved positions. If it is refused, the search has ended; where
its thread would have gone on matters to nobody then. -/
def putOff (s : State) (alternative : Thread) : Progress :=
  let before := s.choices.capacity
  match s.choices.push ⟨alternative, s.marks.bookmark⟩ with
  | (.ok (), choices) =>
    .running { s with choices, log := s.log.addGrowth .choices before choices.capacity }
  | (.error fault, choices) => .halted (.error fault) { s with choices }

/-- Takes up the newest alternative. Without one the text does not match. -/
def backtrack (s : State) : Progress :=
  match s.choices.pop with
  | (some c, choices) =>
    .running
      { s with
        thread := c.thread
        choices
        marks := s.marks.restore c.saved
        backtracks := s.backtracks + 1 }
  | (none, choices) => .halted (.ok false) { s with choices }

/-- Carries out a move of the thread. -/
def perform (s : State) : Move → Progress
  | .fail => s.backtrack
  | .accept use => .halted (.ok true) (s.useMarks use)
  | .corrupt use defect => .halted (.error (.corrupt s.thread.pc defect)) (s.useMarks use)
  | .goto use next => .running { s.useMarks use with thread := next }
  | .fork use next alternative => { s.useMarks use with thread := next }.putOff alternative

/-- Reports that the thread is about to perform `instr`. -/
def report (s : State) (instr : Instr) : State :=
  { s with log := s.log.push (.step s.thread s.choices.depth instr) }

end State

/-- A way in which the threads of a program move: what each instruction does to a thread, given the newest saved
position. -/
abbrev Moves := Program → Text → Thread → Option Nat → Instr → Move

namespace Search

/-- One step, in which the thread moves as `moves` says. It counts even if there is no instruction to perform. -/
def stepBy (moves : Moves) (search : Search) (s : State) : Progress :=
  let s := { s with steps := s.steps + 1 }
  match search.program.instr? s.thread.pc with
  | none => .halted (.error (.corrupt s.thread.pc .pastEnd)) s
  | some instr =>
    let s := if search.tracing then s.report instr else s
    let newest := s.marks.newest?.map Mark.pos
    s.perform (moves search.program search.text s.thread newest instr)

/-- Runs up to `budget` steps with the given moves, and yields nothing if they do not lead to a verdict. -/
def runBy (moves : Moves) (search : Search) : Nat → State → Option (Verdict × State)
  | 0, _ => none
  | budget + 1, s =>
    match search.stepBy moves s with
    | .running s => search.runBy moves budget s
    | .halted verdict s => some (verdict, s)

/-- One step of a search. -/
def step (search : Search) (s : State) : Progress := search.stepBy Program.move s

/-- Runs up to `budget` steps of a search, and yields nothing if they do not lead to a verdict. -/
def run (search : Search) (budget : Nat) (s : State) : Option (Verdict × State) := search.runBy Program.move budget s

section Runs

variable {moves : Moves} {search : Search} {s t : State} {verdict : Verdict}

/-- A run goes on from where its first step leads. -/
theorem runBy_of_running (h : search.stepBy moves s = .running t) (budget : Nat) :
    search.runBy moves (budget + 1) s = search.runBy moves budget t := by
  simp [runBy, h]

/-- A run ends with the step that ends the search. -/
theorem runBy_of_halted (h : search.stepBy moves s = .halted verdict t) (budget : Nat) :
    search.runBy moves (budget + 1) s = some (verdict, t) := by
  simp [runBy, h]

/-- A search goes on from where its first step leads. -/
theorem run_of_running (h : search.step s = .running t) (budget : Nat) :
    search.run (budget + 1) s = search.run budget t :=
  runBy_of_running h budget

/-- A search ends with the step that comes to a verdict. -/
theorem run_of_halted (h : search.step s = .halted verdict t) (budget : Nat) :
    search.run (budget + 1) s = some (verdict, t) :=
  runBy_of_halted h budget

end Runs

/-- A budget that leads to a verdict may be enlarged. -/
theorem run_mono {search : Search} {s : State} {budget budget' : Nat} {r : Verdict × State}
    (h : search.run budget s = some r) (le : budget ≤ budget') : search.run budget' s = some r := by
  induction budget generalizing s budget' with
  | zero => cases h
  | succ budget ih =>
    obtain ⟨budget', rfl⟩ : ∃ k, budget' = k + 1 := ⟨budget' - 1, by omega⟩
    cases step : search.step s with
    | running t =>
      rw [run_of_running step] at h ⊢
      exact ih h (Nat.le_of_succ_le_succ le)
    | halted verdict t =>
      rw [run_of_halted step] at h ⊢
      exact h

end Search

end PatternVM
