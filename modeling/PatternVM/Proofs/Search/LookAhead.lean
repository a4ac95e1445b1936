import PatternVM.Proofs.Search.Counters
import PatternVM.Proofs.Search.Evaluation

/-!
# Looking ahead

A branch looks at the instruction that it is about to put off, and if that accepts, the text matches at once. The
*plain* machine is the same one with other moves, those without that look (`Program.plainMove`): it puts the accepting
instruction off like any other.

Looking ahead is an optimisation and nothing else (`Matcher.run_of_plainRun`). Both machines run in lockstep until
a branch sees an accepting instruction. From then on an accepting place is on the agenda of the plain machine.
It stays there until it is visited, so the plain machine cannot work its agenda off without an accept, while
its counters only go up.
-/

namespace PatternVM

namespace Program

/-- Goes to the target of a jump, with the next instruction as the alternative. -/
def plainMoveToTarget (p : Program) (t : Thread) (offset : Int32) (use : MarkUse) : Move :=
  match p.target t.pc offset with
  | .error defect => .corrupt use defect
  | .ok target =>
    match p.instr? (t.pc + 1) with
    | none => .corrupt use .alternativePastEnd
    | some _ => .fork use { t with pc := target } { t with pc := t.pc + 1 }

/-- Goes to the next instruction, with the target of a jump as the alternative. -/
def plainMoveToNext (p : Program) (t : Thread) (offset : Int32) : Move :=
  match p.target t.pc offset with
  | .error defect => .corrupt .keep defect
  | .ok target => .fork .keep { t with pc := t.pc + 1 } { t with pc := target }

/-- What an instruction does to a thread if branches do not look ahead. -/
def plainMove (p : Program) (text : Text) (t : Thread) (newest : Option Nat) : Instr → Move
  | .branchFirst offset => p.plainMoveToNext t offset
  | .jumpIfAdvanced offset =>
    match newest.map (Motion.since · t.pos) with
    | none => .corrupt .keep .nothingSaved
    | some .still => .goto .drop { t with pc := t.pc + 1 }
    | some .moved => p.plainMoveToTarget t offset .drop
  | .jumpFirst offset => p.plainMoveToTarget t offset .keep
  | instr => p.move text t newest instr

end Program

/-- The verdict and the counters of the plain machine. -/
def Matcher.plainRun (m : Matcher) (budget : Nat) (p : Program) (text : Text) : Option (Verdict × Stats) :=
  ((m.search p text).runBy Program.plainMove budget (.start m.choices m.marks)).map fun (verdict, s) =>
    (verdict, s.stats)

/-! ## Moves -/

namespace Program

variable {p : Program} {text : Text} {t : Thread} {offset : Int32} {use : MarkUse}

/-- The move ends the search with an accept, while the plain one puts an accepting place off. -/
def SeesAccept (p : Program) (move plain : Move) : Prop :=
  ∃ use next alternative, move = .accept use ∧ plain = .fork use next alternative ∧
    p.instr? alternative.pc = some .accept

/-- A jump with the next instruction as the alternative moves as the plain one, or it has seen an accept. -/
lemma moveToTarget_cases :
    p.moveToTarget t offset use = p.plainMoveToTarget t offset use ∨
      p.SeesAccept (p.moveToTarget t offset use) (p.plainMoveToTarget t offset use) := by
  rw [moveToTarget, plainMoveToTarget]
  cases p.target t.pc offset with
  | error defect => exact .inl rfl
  | ok target =>
    cases next : p.instr? (t.pc + 1) with
    | none => exact .inl rfl
    | some instr =>
      cases instr with
      | accept => exact .inr ⟨_, _, _, rfl, rfl, next⟩
      | _ => exact .inl rfl

/-- A branch to the next instruction moves as the plain one, or it has seen an accept. -/
lemma moveToNext_cases :
    p.moveToNext t offset = p.plainMoveToNext t offset ∨
      p.SeesAccept (p.moveToNext t offset) (p.plainMoveToNext t offset) := by
  rw [moveToNext, plainMoveToNext]
  cases p.target t.pc offset with
  | error defect => exact .inl rfl
  | ok target =>
    simp only
    cases at_target : p.instr? target with
    | none => exact .inl rfl
    | some instr =>
      cases instr with
      | accept => exact .inr ⟨_, _, _, rfl, rfl, at_target⟩
      | _ => exact .inl rfl

/-- Where a move differs from the plain one, it has seen an accept. -/
lemma move_cases (p : Program) (text : Text) (t : Thread) (newest : Option Nat) (instr : Instr) :
    p.move text t newest instr = p.plainMove text t newest instr ∨
      p.SeesAccept (p.move text t newest instr) (p.plainMove text t newest instr) := by
  cases instr with
  | branchFirst offset => exact moveToNext_cases
  | jumpIfAdvanced offset =>
    simp only [move, plainMove]
    cases newest.map (Motion.since · t.pos) with
    | none => exact .inl rfl
    | some motion =>
      cases motion with
      | still => exact .inl rfl
      | moved => exact moveToTarget_cases
  | jumpFirst offset => exact moveToTarget_cases
  | _ => exact .inl rfl

/-- A plain visit to an accepting place accepts. -/
lemma plainVisit_of_accept {c : Place} (accepts : p.instr? c.thread.pc = some .accept) :
    p.visitBy plainMove text c = .settled (.ok true) := by
  rw [visitBy, accepts]
  rfl

end Program

/-! ## Steps -/

namespace Search

variable (search : Search) {s : State}

/-- The search goes on with an accepting place on its agenda, or it has ended other than with a failure. -/
inductive StillAccepts : Progress → Prop where
  | running {t} :
    t.Sound →
    (∃ c ∈ t.agenda, search.program.instr? c.thread.pc = some .accept) →
    StillAccepts (.running t)
  | halted {verdict t} :
    verdict ≠ .ok false →
    StillAccepts (.halted verdict t)

/-- An accepting place stays on the agenda of the plain machine until it is visited. -/
lemma plainStep_of_accepting (sound : s.Sound)
    (accepting : ∃ c ∈ s.agenda, search.program.instr? c.thread.pc = some .accept) :
    search.StillAccepts (search.stepBy Program.plainMove s) := by
  have leads := search.stepBy_leads Program.plainMove sound
  generalize visit : search.program.visitBy Program.plainMove search.text s.here = v at leads
  generalize search.stepBy Program.plainMove s = x at leads
  obtain ⟨c, mem, accepts⟩ := accepting
  cases leads with
  | settled => exact .halted (Program.ne_failure_of_visitBy visit)
  | refused => exact .halted nofun
  | exhausted none =>
    obtain rfl | mem := List.mem_cons.mp mem
    · rw [Program.plainVisit_of_accept accepts] at visit
      cases visit
    · rw [none] at mem
      cases mem
  | running sound' agenda =>
    obtain rfl | mem := List.mem_cons.mp mem
    · rw [Program.plainVisit_of_accept accepts] at visit
      cases visit
    · refine .running sound' ⟨c, ?_, accepts⟩
      rw [agenda]
      exact List.mem_append_right _ mem

/-- A fork puts its alternative on the agenda, unless the limit refuses it. -/
lemma stillAccepts_of_fork {use : MarkUse} {next alternative : Thread} (sound : s.Sound)
    (accepts : search.program.instr? alternative.pc = some .accept) :
    search.StillAccepts (s.perform (.fork use next alternative)) := by
  have leads := sound.perform (.fork use next alternative)
  generalize s.perform (.fork use next alternative) = x at leads
  cases leads with
  | refused => exact .halted nofun
  | running sound' agenda =>
    refine .running sound' ⟨⟨alternative, use.on s.marks.toList⟩, ?_, accepts⟩
    rw [agenda]
    exact List.mem_cons_of_mem _ List.mem_cons_self

/-- The machines make the same step, or the one that looks ahead accepts while the other one puts an accepting
place off. -/
lemma step_cases (sound : s.Sound) :
    search.step s = search.stepBy Program.plainMove s ∨
      ∃ t, search.step s = .halted (.ok true) t ∧ t.stats.AtMost (search.stepBy Program.plainMove s).state.stats ∧
        search.StillAccepts (search.stepBy Program.plainMove s) := by
  cases at_pc : search.program.instr? s.thread.pc with
  | none =>
    rw [search.step_of_none at_pc, search.stepBy_of_none at_pc]
    exact .inl rfl
  | some instr =>
    obtain ⟨log, steps⟩ := search.stepBy_of_some at_pc
    have step : search.step s = _ := steps Program.move
    have plain := steps Program.plainMove
    obtain same | ⟨use, next, alternative, accept, fork, accepts⟩ := search.program.move_cases search.text
      s.thread (s.marks.newest?.map Mark.pos) instr
    · rw [step, plain, same]
      exact .inl rfl
    · rw [accept] at step
      rw [fork] at plain
      refine .inr ⟨State.useMarks { s with steps := s.steps + 1, log } use, step, ?_, ?_⟩
      · rw [plain, State.stats_useMarks]
        exact State.atMost_perform _ _
      · rw [plain]
        exact search.stillAccepts_of_fork (s := { s with steps := s.steps + 1, log }) sound accepts

/-! ## Runs -/

variable {search} {t : State} {budget : Nat} {verdict : Verdict}

/-- The counters that a plain run ends with are not below those after its first step. -/
lemma atMost_of_plainRun (run : search.runBy Program.plainMove budget s = some (verdict, t)) :
    (search.stepBy Program.plainMove s).state.stats.AtMost t.stats := by
  induction budget generalizing s with
  | zero => cases run
  | succ budget ih =>
    cases step : search.stepBy Program.plainMove s with
    | running next =>
      rw [runBy_of_running step] at run
      exact (search.atMost_stepBy Program.plainMove next).trans (ih run)
    | halted own last =>
      rw [runBy_of_halted step] at run
      cases run
      exact .refl _

/-- Once an accepting place has been put off, a plain run does not end with a failure. -/
lemma ne_failure_of_plainRun (still : search.StillAccepts (search.stepBy Program.plainMove s))
    (run : search.runBy Program.plainMove budget s = some (verdict, t)) : verdict ≠ .ok false := by
  -- a failure would need an empty agenda, and the accepting place does not leave it unvisited
  induction budget generalizing s with
  | zero => cases run
  | succ budget ih =>
    generalize step : search.stepBy Program.plainMove s = x at still
    cases still with
    | running sound accepting =>
      rw [runBy_of_running step] at run
      exact ih (search.plainStep_of_accepting sound accepting) run
    | halted ne =>
      rw [runBy_of_halted step] at run
      cases run
      exact ne

/-- A step keeps the saved positions of all choice points. -/
lemma sound_of_step (sound : s.Sound) (step : search.step s = .running t) : t.Sound := by
  have leads := search.step_leads sound
  rw [step] at leads
  generalize search.program.visit search.text s.here = v at leads
  cases leads with
  | running sound' => exact sound'

/-- A plain run that comes to an answer is matched by a run that looks ahead. -/
lemma exists_run_of_plainRun {found : Bool} (sound : s.Sound)
    (plain : search.runBy Program.plainMove budget s = some (.ok found, t)) :
    ∃ t', search.run budget s = some (.ok found, t') ∧ t'.stats.AtMost t.stats := by
  induction budget generalizing s with
  | zero => cases plain
  | succ budget ih =>
    obtain same | ⟨t', step, atMost, still⟩ := search.step_cases sound
    · cases step : search.stepBy Program.plainMove s with
      | running next =>
        rw [runBy_of_running step] at plain
        rw [step] at same
        rw [run_of_running same]
        exact ih (sound_of_step sound same) plain
      | halted own last =>
        rw [runBy_of_halted step] at plain
        cases plain
        exact ⟨t, run_of_halted (same.trans step) budget, .refl _⟩
    · -- the plain machine has put an accepting place off, so its answer is yes
      have ne := ne_failure_of_plainRun still plain
      obtain rfl : found = true := by
        cases found with
        | true => rfl
        | false => exact absurd rfl ne
      exact ⟨t', run_of_halted step budget, atMost.trans (atMost_of_plainRun plain)⟩

end Search

namespace Matcher

variable {m : Matcher} {budget : Nat} {p : Program} {text : Text}

/-- If the plain machine comes to an answer, the machine that looks ahead comes to the same one, with no more
steps, backtracks and choice points. -/
theorem run_of_plainRun {found : Bool} {stats : Stats}
    (plain : m.plainRun budget p text = some (.ok found, stats)) :
    ∃ o, m.run budget p text = some o ∧ o.verdict = .ok found ∧ o.matcher.stats.steps ≤ stats.steps ∧
      o.matcher.stats.backtracks ≤ stats.backtracks ∧ o.matcher.stats.peak ≤ stats.peak := by
  rw [plainRun, Option.map_eq_some_iff] at plain
  obtain ⟨⟨verdict, t⟩, plain, eq⟩ := plain
  obtain ⟨rfl, rfl⟩ := Prod.mk.inj eq
  obtain ⟨sound, _⟩ := sound_start m.choices m.marks
  obtain ⟨t', run, steps, backtracks, peak⟩ := Search.exists_run_of_plainRun sound plain
  exact ⟨_, Option.map_eq_some_iff.mpr ⟨_, run, rfl⟩, rfl, steps, backtracks, peak⟩

/-- A branch whose second way is to accept. The plain machine tries the first way before. -/
theorem run_of_plainRun_branch :
    let p : Program := ⟨#[.textStart false, .branchFirst 2, .literal [122] false, .accept], #[]⟩
    let m := Matcher.ofConfig ⟨1, .none⟩
    m.plainRun 10 p #[] = some (.ok true, ⟨4, 1, 1, false⟩) ∧
      ∃ o, m.run 10 p #[] = some o ∧ o.verdict = .ok true ∧ o.matcher.stats.steps ≤ 4 ∧
        o.matcher.stats.backtracks ≤ 1 ∧ o.matcher.stats.peak ≤ 1 := by
  intro p m
  have plain : m.plainRun 10 p #[] = some (.ok true, ⟨4, 1, 1, false⟩) := by decide +kernel
  exact ⟨plain, run_of_plainRun plain⟩

end Matcher

end PatternVM
