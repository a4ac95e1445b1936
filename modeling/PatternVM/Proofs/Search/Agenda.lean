import Mathlib.Tactic.Common
import PatternVM.Matcher.Basic
import PatternVM.Proofs.Stack.Persistence

/-!
# Agendas

A search is read as an *agenda*: the places that are still to be visited, first the present one, then the
choice points from the newest to the oldest. A place is a thread with its saved positions as an immutable
list. `Program.explore` works an agenda off without any stack, and `Matcher.run_verdict` says that a run is
such an exploration, step for step, until it ends or its limit refuses a choice point.

The invariant behind that is `State.Sound`: the stack of saved positions serves the bookmarks of all choice
points. `Leads` says what a step may come to, given what comes of the visit to the present place, and
`Search.step_leads` that it comes to nothing else.
-/

namespace PatternVM

/-- A thread with the positions that it has saved, newest first. -/
structure Place where
  thread : Thread
  saved : List Nat
  deriving DecidableEq

/-- The place where every search begins. -/
def Place.start : Place := ⟨.start, []⟩

/-- The saved positions after a move has done to them what it asks for. -/
def MarkUse.on (saved : List Nat) : MarkUse → List Nat
  | .keep => saved
  | .save pos => pos :: saved
  | .drop => saved.tail

/-- What comes of a visit to a place: a verdict, or the places to be visited instead, in order. -/
inductive Visit
  | settled (verdict : Verdict)
  | opened (places : List Place)

/-- What comes of a visit to a place whose thread makes the given move. -/
def Move.visit (c : Place) : Move → Visit
  | .fail => .opened []
  | .accept _ => .settled (.ok true)
  | .corrupt _ defect => .settled (.error (.corrupt c.thread.pc defect))
  | .goto use next => .opened [⟨next, use.on c.saved⟩]
  | .fork use next alternative => .opened [⟨next, use.on c.saved⟩, ⟨alternative, use.on c.saved⟩]

namespace Program

/-- What comes of a visit to a place, if threads move as `moves` says. -/
def visitBy (moves : Moves) (p : Program) (text : Text) (c : Place) : Visit :=
  match p.instr? c.thread.pc with
  | none => .settled (.error (.corrupt c.thread.pc .pastEnd))
  | some instr => (moves p text c.thread c.saved.head? instr).visit c

/-- What comes of a visit to a place. -/
def visit (p : Program) (text : Text) (c : Place) : Visit := p.visitBy move text c

/-- Works an agenda off in up to `budget` visits. Each place makes room for those that a visit opens. -/
def explore (p : Program) (text : Text) : Nat → List Place → Option Verdict
  | _, [] => some (.ok false)
  | 0, _ :: _ => none
  | budget + 1, c :: rest =>
    match p.visit text c with
    | .settled verdict => some verdict
    | .opened places => p.explore text budget (places ++ rest)

variable {p : Program} {text : Text} {c : Place} {rest places : List Place} {verdict : Verdict}

/-- With nothing left to be visited, the text does not match. -/
@[simp] lemma explore_nil (budget : Nat) : p.explore text budget [] = some (.ok false) := by
  cases budget <;> rfl

/-- A visit that gives a verdict decides the exploration. -/
lemma explore_of_settled (h : p.visit text c = .settled verdict) (budget : Nat) :
    p.explore text (budget + 1) (c :: rest) = some verdict := by
  rw [explore, h]

/-- An exploration goes on with the places that a visit opens, and then with the rest. -/
lemma explore_of_opened (h : p.visit text c = .opened places) (budget : Nat) :
    p.explore text (budget + 1) (c :: rest) = p.explore text budget (places ++ rest) := by
  rw [explore, h]

end Program

/-- The place that a choice point stands for. -/
def ChoicePoint.place (marks : MarkStack) (c : ChoicePoint) : Place := ⟨c.thread, marks.listAt c.saved⟩

namespace State

/-- The bookmarks of the choice points, newest first. -/
def bookmarks (s : State) : List Bookmark := s.choices.points.toList.reverse.map ChoicePoint.saved

/-- The place that is visited next. -/
def here (s : State) : Place := ⟨s.thread, s.marks.toList⟩

/-- The places that have been put off, newest first. -/
def deferred (s : State) : List Place := s.choices.points.toList.reverse.map (·.place s.marks)

/-- All places that are still to be visited, in order. -/
def agenda (s : State) : List Place := s.here :: s.deferred

/-- The saved positions of all choice points can be brought back. -/
def Sound (s : State) : Prop := s.marks.Serves s.bookmarks

end State

/-- What a step may come to, if `rest` has been put off: it ends with the verdict of the visit, a choice
point is refused, nothing remains to be visited, or the search goes on with the places that the visit has
opened and the rest. -/
inductive Leads (limit : Nat) (rest : List Place) : Visit → Progress → Prop where
  | settled {verdict t} :
    Leads limit rest (.settled verdict) (.halted verdict t)
  | refused {places t} :
    limit ≠ 0 →
    Leads limit rest (.opened places) (.halted (.error .choiceLimit) t)
  | exhausted {t} :
    rest = [] →
    Leads limit rest (.opened []) (.halted (.ok false) t)
  | running {places t} :
    t.Sound →
    t.agenda = places ++ rest →
    t.choices.limit = limit →
    Leads limit rest (.opened places) (.running t)

/-- Choice points stand for the same places where their bookmarks lead to the same lists. -/
lemma places_congr {marks marks' : MarkStack} {points : List ChoicePoint}
    (lists : (points.map ChoicePoint.saved).map marks'.listAt =
      (points.map ChoicePoint.saved).map marks.listAt) :
    points.map (·.place marks') = points.map (·.place marks) := by
  rw [List.map_map, List.map_map] at lists
  refine List.map_congr_left fun c mem => ?_
  have list := List.map_inj_left.mp lists c mem
  exact congrArg (Place.mk c.thread) list

namespace State

variable {s : State}

/-- There is a bookmark for each choice point. -/
lemma length_bookmarks : s.bookmarks.length = s.choices.depth := by
  rw [bookmarks, List.length_map, List.length_reverse, Array.length_toList, ChoiceStack.depth]

/-- What a move does to the saved positions leaves the choice points alone. -/
lemma choices_useMarks (s : State) (use : MarkUse) : (s.useMarks use).choices = s.choices := by
  cases use with
  | keep => rfl
  | save pos => rfl
  | drop => rfl

/-- What a move does to the saved positions leaves the thread where it is. -/
lemma thread_useMarks (s : State) (use : MarkUse) : (s.useMarks use).thread = s.thread := by
  cases use with
  | keep => rfl
  | save pos => rfl
  | drop => rfl

/-- What a move does to the saved positions of its thread leaves those of the choice points alone. -/
lemma Sound.useMarks (h : s.Sound) (use : MarkUse) :
    (s.useMarks use).Sound ∧ (s.useMarks use).marks.toList = use.on s.marks.toList ∧
      (s.useMarks use).deferred = s.deferred ∧ (s.useMarks use).choices = s.choices := by
  cases use with
  | keep => exact ⟨h, rfl, rfl, rfl⟩
  | save pos =>
    obtain ⟨serves, lists⟩ := h.push pos
    rw [length_bookmarks] at serves lists
    exact ⟨serves, h.linked.toList_push .., places_congr lists, rfl⟩
  | drop =>
    obtain ⟨serves, lists⟩ := h.drop
    rw [length_bookmarks] at serves lists
    exact ⟨serves, h.linked.toList_drop _, places_congr lists, rfl⟩

/-- Putting an alternative off leads to the present place and the alternative behind it, unless the limit refuses it. -/
lemma Sound.putOff (h : s.Sound) (alternative : Thread) :
    Leads s.choices.limit s.deferred (.opened [s.here, ⟨alternative, s.marks.toList⟩])
      (s.putOff alternative) := by
  rw [State.putOff, ChoiceStack.push]
  by_cases full : s.choices.isFull
  · rw [if_pos full]
    refine .refused fun unlimited => ?_
    simp [ChoiceStack.isFull, unlimited] at full
  · rw [if_neg full]
    refine .running ?_ ?_ rfl
    · simp only [Sound, bookmarks, Array.toList_push, List.reverse_append]
      exact h.bookmark
    · simp only [agenda, deferred, Array.toList_push, List.reverse_append]
      rfl

/-- Going back leads to the newest place that has been put off, if there is one. -/
lemma Sound.backtrack (h : s.Sound) : Leads s.choices.limit s.deferred (.opened []) s.backtrack := by
  obtain ⟨thread, ⟨points, capacity, limit, peak⟩, marks, steps, backtracks, log⟩ := s
  cases e : points.back? with
  | none =>
    obtain rfl := Array.back?_eq_none_iff.mp e
    exact .exhausted rfl
  | some c =>
    obtain ⟨older, rfl⟩ := Array.back?_eq_some_iff.mp e
    simp only [Sound, bookmarks, Array.toList_push, List.reverse_append] at h
    obtain ⟨serves, lists⟩ := h.restore
    have brought_back := h.toList_restore List.mem_cons_self
    simp only [State.backtrack, ChoiceStack.pop, e, Array.pop_push, deferred, Array.toList_push,
      List.reverse_append]
    refine .running serves ?_ rfl
    exact congrArg₂ List.cons (congrArg (Place.mk c.thread) brought_back) (places_congr lists)

/-- Carrying out a move leads to what comes of the visit. -/
lemma Sound.perform (h : s.Sound) (move : Move) :
    Leads s.choices.limit s.deferred (move.visit s.here) (s.perform move) := by
  cases move with
  | fail => exact h.backtrack
  | accept use => exact .settled
  | corrupt use defect => exact .settled
  | goto use next =>
    obtain ⟨sound, saved, deferred, choices⟩ := h.useMarks use
    refine .running sound ?_ (congrArg ChoiceStack.limit choices)
    exact congrArg₂ List.cons (congrArg (Place.mk next) saved) deferred
  | fork use next alternative =>
    obtain ⟨sound, saved, deferred, choices⟩ := h.useMarks use
    have leads := Sound.putOff (s := { s.useMarks use with thread := next }) sound alternative
    simp only [here, saved] at leads
    rw [← deferred, ← choices]
    exact leads

end State

namespace Search

variable {moves : Moves} (search : Search) {s : State} {instr : Instr}

/-- Where there is no instruction, a step ends the search. It counts all the same. -/
lemma stepBy_of_none (none : search.program.instr? s.thread.pc = none) :
    search.stepBy moves s =
      .halted (.error (.corrupt s.thread.pc .pastEnd)) { s with steps := s.steps + 1 } := by
  rw [stepBy]
  simp only [none]

/-- Where there is an instruction, a step carries out its move. It counts, and it may be reported. Neither depends on
how threads move. -/
lemma stepBy_of_some (at_pc : search.program.instr? s.thread.pc = some instr) :
    ∃ log, ∀ moves : Moves, search.stepBy moves s = State.perform { s with steps := s.steps + 1, log }
      (moves search.program search.text s.thread (s.marks.newest?.map Mark.pos) instr) := by
  simp only [stepBy, at_pc]
  cases search.tracing with
  | false => exact ⟨s.log, fun _ => rfl⟩
  | true => exact ⟨s.log.push (.step s.thread s.choices.depth instr), fun _ => rfl⟩

/-- Where there is no instruction, a step ends the search. It counts all the same. -/
lemma step_of_none (none : search.program.instr? s.thread.pc = none) :
    search.step s = .halted (.error (.corrupt s.thread.pc .pastEnd)) { s with steps := s.steps + 1 } :=
  search.stepBy_of_none none

/-- Where there is an instruction, a step carries out its move. It counts, and it may be reported. -/
lemma step_of_some (at_pc : search.program.instr? s.thread.pc = some instr) :
    ∃ log, search.step s = State.perform { s with steps := s.steps + 1, log }
      (search.program.move search.text s.thread (s.marks.newest?.map Mark.pos) instr) := by
  obtain ⟨log, step⟩ := search.stepBy_of_some at_pc
  exact ⟨log, step Program.move⟩

/-- A step leads to what comes of a visit to the present place, however threads move. -/
lemma stepBy_leads (moves : Moves) (sound : s.Sound) :
    Leads s.choices.limit s.deferred (search.program.visitBy moves search.text s.here)
      (search.stepBy moves s) := by
  rw [Program.visitBy]
  cases at_pc : search.program.instr? s.thread.pc with
  | none =>
    rw [search.stepBy_of_none at_pc]
    simp only [State.here, at_pc]
    exact .settled
  | some instr =>
    obtain ⟨log, step⟩ := search.stepBy_of_some at_pc
    rw [step, sound.linked.newest?_map_pos]
    simp only [State.here, at_pc]
    exact State.Sound.perform (s := { s with steps := s.steps + 1, log }) sound _

/-- A step leads to what comes of a visit to the present place. -/
lemma step_leads (sound : s.Sound) :
    Leads s.choices.limit s.deferred (search.program.visit search.text s.here) (search.step s) :=
  search.stepBy_leads Program.move sound

/-- A run explores the agenda step for step, unless its limit refuses a choice point. -/
lemma run_explore (sound : s.Sound) (budget : Nat) :
    (search.run budget s).map Prod.fst = search.program.explore search.text budget s.agenda ∨
      s.choices.limit ≠ 0 ∧ (search.run budget s).map Prod.fst = some (.error .choiceLimit) := by
  -- a step is one visit, so both run out of budget together
  induction budget generalizing s with
  | zero => exact .inl rfl
  | succ budget ih =>
    have leads := search.step_leads sound
    generalize visit : search.program.visit search.text s.here = v at leads
    generalize step : search.step s = r at leads
    cases leads with
    | settled =>
      rw [run_of_halted step, State.agenda, Program.explore_of_settled visit]
      exact .inl rfl
    | refused limited =>
      rw [run_of_halted step]
      exact .inr ⟨limited, rfl⟩
    | exhausted none =>
      rw [run_of_halted step, State.agenda, Program.explore_of_opened visit, none]
      exact .inl (Program.explore_nil budget).symm
    | running sound' agenda limit =>
      rw [run_of_running step, State.agenda, Program.explore_of_opened visit, ← agenda, ← limit]
      exact ih sound'

end Search

namespace Matcher

/-- At the start nothing has been put off, and only the first place is on the agenda. -/
lemma sound_start (choices : ChoiceStack) (marks : MarkStack) :
    (State.start choices marks).Sound ∧ (State.start choices marks).agenda = [.start] :=
  ⟨.reset marks, congrArg (fun saved => [Place.mk .start saved]) (MarkStack.chain_of_none rfl)⟩

/-- The verdict of a run is that of the exploration from the start, unless the matcher's limit refuses a
choice point. -/
lemma run_verdict (m : Matcher) (budget : Nat) (p : Program) (text : Text) :
    (m.run budget p text).map Outcome.verdict = p.explore text budget [.start] ∨
      m.limit ≠ 0 ∧ (m.run budget p text).map Outcome.verdict = some (.error .choiceLimit) := by
  obtain ⟨sound, agenda⟩ := sound_start m.choices m.marks
  have explored := Search.run_explore ⟨p, text, m.options.has .trace⟩ sound budget
  rw [agenda] at explored
  rw [run, Option.map_map]
  exact explored

end Matcher

end PatternVM
