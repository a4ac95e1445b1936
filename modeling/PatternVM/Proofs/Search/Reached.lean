import Mathlib.Logic.Relation
import PatternVM.Proofs.Search.Visits

/-!
# Reached states

The states that a run passes through, and how to say something about all of them. A run works an agenda off,
so it is enough to look at the visit to one place: what holds of the start, and of all places that a visit
opens if it holds of the visited one, holds of the whole agenda at any time, also after the search has gone
back to a choice point (`Matcher.Reaches.places`). A fault that is laid to the program is what a visit to a
reached place gives (`Matcher.exists_reaches_of_corrupt`).
-/

namespace PatternVM

/-- The state that a step has led to, whether the search goes on or has ended there. -/
def Progress.state : Progress → State
  | running s | halted _ s => s

/-! ## What moves and steps keep -/

section Keeps

variable {I : State → Prop} {s : State}

/-- Putting an alternative off touches the choice points and the reports only. -/
lemma State.exists_state_putOff (s : State) (alternative : Thread) :
    ∃ choices log, (s.putOff alternative).state = { s with choices, log } := by
  rw [putOff, ChoiceStack.push]
  by_cases full : s.choices.isFull
  · rw [if_pos full]
    exact ⟨_, _, rfl⟩
  · rw [if_neg full]
    exact ⟨_, _, rfl⟩

/-- Moves are made of four operations, so what each of these keeps is kept by every move. -/
lemma State.perform_keeps (start : I s) (useMarks : ∀ t use, I t → I (t.useMarks use))
    (goto : ∀ t next, I t → I { t with thread := next })
    (putOff : ∀ t alternative, I t → I (t.putOff alternative).state)
    (backtrack : ∀ t, I t → I t.backtrack.state) (move : Move) : I (s.perform move).state := by
  cases move with
  | fail => exact backtrack s start
  | accept use | corrupt use defect => exact useMarks s use start
  | goto use next => exact goto _ next (useMarks s use start)
  | fork use next alternative => exact putOff _ alternative (goto _ next (useMarks s use start))

/-- A step counts, it may be reported, and it carries out a move if there is an instruction. -/
lemma Search.stepBy_keeps {moves : Moves} (search : Search)
    (counted : ∀ log, I { s with steps := s.steps + 1, log })
    (perform : ∀ t move, I t → I (t.perform move).state) : I (search.stepBy moves s).state := by
  cases at_pc : search.program.instr? s.thread.pc with
  | none =>
    rw [search.stepBy_of_none at_pc]
    exact counted s.log
  | some instr =>
    obtain ⟨log, step⟩ := search.stepBy_of_some at_pc
    rw [step]
    exact perform _ _ (counted log)

end Keeps

namespace Search

/-- A run from `s` passes through `t` before one of its steps. -/
def Reaches (search : Search) : State → State → Prop :=
  Relation.ReflTransGen fun s t => search.step s = .running t

variable {search : Search} {s t : State}

/-- A run that comes to a verdict comes to it by a step from a state that it has reached. -/
lemma exists_reaches_of_run {budget : Nat} {verdict : Verdict} (h : search.run budget s = some (verdict, t)) :
    ∃ last, search.Reaches s last ∧ search.step last = .halted verdict t := by
  induction budget generalizing s with
  | zero => cases h
  | succ budget ih =>
    cases step : search.step s with
    | running next =>
      rw [run_of_running step] at h
      obtain ⟨last, reaches, halts⟩ := ih h
      exact ⟨last, .head step reaches, halts⟩
    | halted own t' =>
      rw [run_of_halted step] at h
      cases h
      exact ⟨s, .refl, step⟩

/-- A run goes on from each state that it passes through. -/
lemma Reaches.run {budget : Nat} {r : Verdict × State} (reaches : search.Reaches s t)
    (run : search.run budget s = some r) : ∃ budget', search.run budget' t = some r := by
  induction reaches with
  | refl => exact ⟨budget, run⟩
  | tail _ step ih =>
    obtain ⟨budget', run'⟩ := ih
    cases budget' with
    | zero => cases run'
    | succ budget' =>
      rw [run_of_running step] at run'
      exact ⟨budget', run'⟩

variable {I : State → Prop}

/-- What holds at the start and is kept by steps holds in all states that are reached. -/
lemma Reaches.keeps (reaches : search.Reaches s t) (steps : ∀ s, I s → I (search.step s).state) (start : I s) :
    I t := by
  induction reaches with
  | refl => exact start
  | tail _ step ih =>
    have kept := steps _ ih
    rw [step] at kept
    exact kept

/-- What steps keep, also the last one, holds of the state that a run ends in. -/
lemma run_keeps {budget : Nat} {verdict : Verdict} (run : search.run budget s = some (verdict, t))
    (steps : ∀ s, I s → I (search.step s).state) (start : I s) : I t := by
  obtain ⟨last, reaches, halts⟩ := exists_reaches_of_run run
  have kept := steps last (reaches.keeps steps start)
  rw [halts] at kept
  exact kept

/-- What visits keep of an agenda holds of the agenda of every reached state. -/
lemma Reaches.agenda {I : List Place → Prop} (reaches : search.Reaches s t) (sound : s.Sound)
    (start : I s.agenda)
    (keeps : ∀ c rest places, I (c :: rest) → search.program.visit search.text c = .opened places →
      I (places ++ rest)) : t.Sound ∧ I t.agenda := by
  induction reaches with
  | refl => exact ⟨sound, start⟩
  | @tail t t' _ step ih =>
    obtain ⟨sound, holds⟩ := ih
    have leads := search.step_leads sound
    rw [step] at leads
    generalize visit : search.program.visit search.text t.here = v at leads
    cases leads with
    | running sound' agenda _ =>
      refine ⟨sound', ?_⟩
      rw [agenda]
      exact keeps _ _ _ holds visit

/-- A step that finds a defect finds it in a visit to the present place. -/
lemma visit_of_corrupt {pc : Nat} {defect : Defect} (sound : s.Sound)
    (halts : search.step s = .halted (.error (.corrupt pc defect)) t) :
    search.program.visit search.text s.here = .settled (.error (.corrupt pc defect)) := by
  have leads := search.step_leads sound
  rw [halts] at leads
  generalize visit : search.program.visit search.text s.here = v at leads
  cases leads with
  | settled => rfl

end Search

namespace Matcher

/-- The search that a matcher performs to match a program. -/
def search (m : Matcher) (p : Program) (text : Text) : Search := ⟨p, text, m.options.has .trace⟩

/-- A matcher that runs a program passes through the state `s` before one of its steps. -/
def Reaches (m : Matcher) (p : Program) (text : Text) (s : State) : Prop :=
  (m.search p text).Reaches (.start m.choices m.marks) s

variable {m : Matcher} {p : Program} {text : Text} {s : State}

/-- What holds of the first agenda and is kept by visits holds of the agenda of every reached state. -/
lemma Reaches.agenda {I : List Place → Prop} (reaches : m.Reaches p text s) (start : I [.start])
    (keeps : ∀ c rest places, I (c :: rest) → p.visit text c = .opened places → I (places ++ rest)) :
    s.Sound ∧ I s.agenda := by
  obtain ⟨sound, agenda⟩ := sound_start m.choices m.marks
  exact Search.Reaches.agenda reaches sound (agenda ▸ start) keeps

/-- All places on the agenda of a reached state have the properties that instructions and searches for a
token hand on, and their cursors are within the text. -/
lemma Reaches.places {P : Place → Prop} (reaches : m.Reaches p text s) (start : P .start)
    (onward : ∀ c c' instr, P c → p.instr? c.thread.pc = some instr → p.Onward text instr c c' → P c')
    (again : ∀ c q, P c → c.thread.pos < q → P ⟨⟨c.thread.pc, q, true⟩, c.saved⟩) :
    s.Sound ∧ ∀ c ∈ s.agenda, c.thread.pos ≤ text.size ∧ P c := by
  refine reaches.agenda (I := fun agenda => ∀ c ∈ agenda, c.thread.pos ≤ text.size ∧ P c) ?_ ?_
  · intro c mem
    obtain rfl := List.mem_singleton.mp mem
    exact ⟨Nat.zero_le _, start⟩
  · intro c rest places holds opened c' mem
    obtain ⟨within, property⟩ := holds c List.mem_cons_self
    obtain mem | mem := List.mem_append.mp mem
    · obtain ⟨instr, at_pc, leads | ⟨q, lt, le, rfl⟩⟩ := Program.onward_of_opened within opened mem
      · exact ⟨leads.within, onward c c' instr property at_pc leads⟩
      · exact ⟨le, again c q property lt⟩
    · exact holds c' (List.mem_cons_of_mem c mem)

/-- A match that finds a fault in its program finds it at a state that it has reached. -/
lemma exists_reaches_of_corrupt {budget pc : Nat} {defect : Defect} {o : Outcome}
    (test : m.test budget p text = some o) (corrupt : o.verdict = .error (.corrupt pc defect)) :
    ∃ s t, m.Reaches p text s ∧ (m.search p text).step s = .halted (.error (.corrupt pc defect)) t ∧
      p.visit text s.here = .settled (.error (.corrupt pc defect)) := by
  rw [Matcher.test] at test
  split at test
  · -- a search of the text always gives an answer
    cases test
    cases corrupt
  · rw [run, Option.map_eq_some_iff] at test
    obtain ⟨⟨verdict, t⟩, run, rfl⟩ := test
    obtain rfl : verdict = .error (.corrupt pc defect) := corrupt
    obtain ⟨s, reaches, halts⟩ := Search.exists_reaches_of_run run
    obtain ⟨sound, _⟩ := Reaches.agenda (m := m) (I := fun _ => True) reaches trivial fun _ _ _ _ _ => trivial
    exact ⟨s, t, reaches, halts, Search.visit_of_corrupt sound halts⟩

end Matcher

end PatternVM
