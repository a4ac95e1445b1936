import PatternVM.Proofs.Search.Reached
import PatternVM.Proofs.Stack.Guarded
import PatternVM.Proofs.Text.Guarded

/-!
# Bounds

A search keeps within its text and its stacks, whatever the program. `Search.step?` is a step with every
access guarded; it fails as soon as the text is sliced behind its end, a slot is read or written that is not
there, or a difference falls below zero. `Matcher.inBounds_of_reaches` says that all cursors, links and heads
of a reached state are in range, and that therefore the guarded step is the step.

Nothing is asked of the program. An instruction that would lead outside ends the search with a fault, and the
links have been set by the operations of the stack alone.
-/

namespace PatternVM

/-! ## Guarded steps -/

/-- Guarded `Program.move`. Tokens look at the text, and a `jumpIfAdvanced` at the newest saved position. -/
def Program.move? (p : Program) (text : Text) (t : Thread) (marks : MarkStack) : Instr → Option Move
  | .literal bytes atEnd => (Token.literal bytes).move? text atEnd t
  | .byteClass id atEnd =>
    match p.class? id with
    | some set => (Token.oneOf set).move? text atEnd t
    | none => some (.corrupt .keep (.classOutOfRange id))
  | .anyByte atEnd => Token.anyByte.move? text atEnd t
  | .jumpIfAdvanced offset => do
    let (_, _, slot) ← marks.newestSlot?
    return p.move text t (slot.mark.map Mark.pos) (.jumpIfAdvanced offset)
  | instr => some (p.move text t none instr)

namespace State

/-- Guarded `State.useMarks`. -/
def useMarks? (s : State) : MarkUse → Option State
  | .keep => some s
  | .save pos => do
    let before := s.marks.capacity
    let marks ← s.marks.push? pos s.choices.depth
    return { s with marks, log := s.log.addGrowth .marks before marks.capacity }
  | .drop => do
    let marks ← s.marks.drop? s.choices.depth
    return { s with marks }

/-- Guarded `State.putOff`. -/
def putOff? (s : State) (alternative : Thread) : Option Progress := do
  let before := s.choices.capacity
  let saved ← s.marks.bookmark?
  match s.choices.push ⟨alternative, saved⟩ with
  | (.ok (), choices) =>
    return .running { s with choices, log := s.log.addGrowth .choices before choices.capacity }
  | (.error fault, choices) => return .halted (.error fault) { s with choices }

/-- Guarded `State.backtrack`. -/
def backtrack? (s : State) : Option Progress :=
  match s.choices.pop with
  | (some c, choices) => do
    let marks ← s.marks.restore? c.saved
    return .running { s with thread := c.thread, choices, marks, backtracks := s.backtracks + 1 }
  | (none, choices) => some (.halted (.ok false) { s with choices })

/-- Guarded `State.perform`. -/
def perform? (s : State) : Move → Option Progress
  | .fail => s.backtrack?
  | .accept use => do
    let last ← s.useMarks? use
    return .halted (.ok true) last
  | .corrupt use defect => do
    let last ← s.useMarks? use
    return .halted (.error (.corrupt s.thread.pc defect)) last
  | .goto use next => do
    let s ← s.useMarks? use
    return .running { s with thread := next }
  | .fork use next alternative => do
    let s ← s.useMarks? use
    putOff? { s with thread := next } alternative

end State

/-- Guarded `Search.step`. -/
def Search.step? (search : Search) (s : State) : Option Progress :=
  let s := { s with steps := s.steps + 1 }
  match search.program.instr? s.thread.pc with
  | none => some (.halted (.error (.corrupt s.thread.pc .pastEnd)) s)
  | some instr => do
    let s := if search.tracing then s.report instr else s
    let move ← search.program.move? search.text s.thread s.marks instr
    s.perform? move

/-- With the cursor within the text and linked saved positions, no guard of a move fails. -/
lemma Program.move?_eq {p : Program} {text : Text} {t : Thread} {marks : MarkStack}
    (within : t.pos ≤ text.size) (lk : marks.Linked) (instr : Instr) :
    p.move? text t marks instr = some (p.move text t (marks.newest?.map Mark.pos) instr) := by
  cases instr with
  | literal bytes atEnd => exact Token.move?_eq _ atEnd within
  | byteClass id atEnd =>
    simp only [move?, move]
    cases p.class? id with
    | none => rfl
    | some set => exact Token.move?_eq _ atEnd within
  | anyByte atEnd => exact Token.anyByte.move?_eq atEnd within
  | jumpIfAdvanced offset =>
    simp only [move?, lk.newestSlot?_eq]
    rfl
  | _ => rfl

namespace State

variable {s t : State}

/-- The bookmarks of choice points fit the stack of saved positions. -/
lemma Sound.fits {c : ChoicePoint} (sound : s.Sound) (mem : c ∈ s.choices.points) : c.saved.Fits s.marks := by
  refine sound.kept.2.fits (List.mem_map_of_mem ?_)
  rw [List.mem_reverse]
  exact Array.mem_toList_iff.mpr mem

/-- No guard fails when a move uses the saved positions. -/
lemma Sound.useMarks?_eq (sound : s.Sound) (use : MarkUse) : s.useMarks? use = some (s.useMarks use) := by
  cases use with
  | keep => rfl
  | save pos =>
    rw [useMarks?, sound.linked.push?_eq]
    rfl
  | drop =>
    rw [useMarks?, sound.linked.drop?_eq]
    rfl

/-- No guard fails when an alternative is put off. -/
protected lemma Sound.putOff?_eq (sound : s.Sound) (alternative : Thread) :
    s.putOff? alternative = some (s.putOff alternative) := by
  rw [putOff?, sound.linked.bookmark?_eq, State.putOff]
  simp only [Option.bind_eq_bind, Option.bind_some]
  generalize s.choices.push ⟨alternative, s.marks.bookmark⟩ = pushed
  obtain ⟨refusal | _, choices⟩ := pushed
  · rfl
  · rfl

/-- No guard fails when the newest alternative is taken up. -/
lemma Sound.backtrack?_eq (sound : s.Sound) : s.backtrack? = some s.backtrack := by
  rw [backtrack?, State.backtrack, ChoiceStack.pop]
  cases newest : s.choices.points.back? with
  | none => rfl
  | some c =>
    have fits := sound.fits (Array.mem_of_back? newest)
    simp only [MarkStack.restore?_eq fits.top_lt]
    rfl

/-- No guard fails when a move is carried out. -/
lemma Sound.perform?_eq (sound : s.Sound) (move : Move) : s.perform? move = some (s.perform move) := by
  cases move with
  | fail => exact sound.backtrack?_eq
  | accept use | corrupt use defect | goto use next =>
    rw [perform?, sound.useMarks?_eq]
    rfl
  | fork use next alternative =>
    obtain ⟨sound', _⟩ := sound.useMarks use
    rw [perform?, sound.useMarks?_eq]
    exact Sound.putOff?_eq (s := { s.useMarks use with thread := next }) sound' alternative

end State

/-- With the cursor within the text and all bookmarks in range, no guard of a step fails. -/
lemma Search.step?_eq {search : Search} {s : State} (sound : s.Sound)
    (within : s.thread.pos ≤ search.text.size) : search.step? s = some (search.step s) := by
  simp only [step?, step, stepBy]
  cases search.program.instr? s.thread.pc with
  | none => rfl
  | some instr =>
    simp only
    cases search.tracing with
    | false =>
      simp only [Bool.false_eq_true, if_false, Program.move?_eq within sound.linked, Option.bind_eq_bind,
        Option.bind_some]
      exact State.Sound.perform?_eq (s := { s with steps := s.steps + 1 }) sound _
    | true =>
      simp only [if_true, State.report, Program.move?_eq within sound.linked]
      exact State.Sound.perform?_eq (s := State.report { s with steps := s.steps + 1 } instr) sound _

/-! ## What is in range -/

/-- Threads are within the text and the program. The present one may have passed the last instruction, and
those that have been put off stand at instructions. -/
structure State.Confined (s : State) (p : Program) (text : Text) : Prop where
  pos_le : s.thread.pos ≤ text.size
  pc_le : s.thread.pc ≤ p.size
  point {c} : c ∈ s.choices.points → c.thread.pos ≤ text.size ∧ c.thread.pc < p.size

/-- Threads, bookmarks and links are in range. -/
structure State.InBounds (s : State) (p : Program) (text : Text) : Prop extends s.Confined p text where
  fits {c} : c ∈ s.choices.points → c.saved.Fits s.marks
  linked : s.marks.Linked

/-- What a visit opens is in range. Only the first place may be behind the last instruction. -/
lemma Program.Gives.inBounds {p : Program} {text : Text} {c first : Place} {rest : List Place}
    (gives : p.Gives text c (.opened (first :: rest))) :
    (first.thread.pos ≤ text.size ∧ first.thread.pc ≤ p.size) ∧
      ∀ c' ∈ rest, c'.thread.pos ≤ text.size ∧ c'.thread.pc < p.size := by
  cases gives with
  | moved at_pc onward => exact ⟨⟨onward.within, le_size_of_mem_successors at_pc onward.pc_mem⟩, nofun⟩
  | forked at_pc onward onward' lt =>
    refine ⟨⟨onward.within, le_size_of_mem_successors at_pc onward.pc_mem⟩, fun c' mem => ?_⟩
    obtain rfl := List.mem_singleton.mp mem
    exact ⟨onward'.within, lt⟩
  | scanned at_pc onward _ le =>
    refine ⟨⟨onward.within, le_size_of_mem_successors at_pc onward.pc_mem⟩, fun c' mem => ?_⟩
    obtain rfl := List.mem_singleton.mp mem
    exact ⟨le, lt_size_of_instr? at_pc⟩

namespace State

variable {s : State} {p : Program} {text : Text}

/-- If threads are in range, so are the bookmarks and links. -/
lemma Sound.inBounds (sound : s.Sound) (confined : s.Confined p text) : s.InBounds p text :=
  ⟨confined, sound.fits, sound.linked⟩

/-- Going back leads into the range where the alternative has been put off. -/
lemma Confined.backtrack (sound : s.Sound) (confined : s.Confined p text) :
    s.backtrack.state.Sound ∧ s.backtrack.state.Confined p text := by
  have leads := sound.backtrack
  obtain ⟨thread, ⟨points, capacity, limit, peak⟩, marks, steps, backtracks, log⟩ := s
  cases newest : points.back? with
  | none =>
    obtain rfl := Array.back?_eq_none_iff.mp newest
    exact ⟨sound, confined⟩
  | some c =>
    obtain ⟨older, rfl⟩ := Array.back?_eq_some_iff.mp newest
    simp only [State.backtrack, ChoiceStack.pop, newest, Array.pop_push] at leads ⊢
    obtain ⟨pos_le, pc_lt⟩ := confined.point (Array.mem_push_self ..)
    cases leads with
    | running sound' _ _ =>
      refine ⟨sound', pos_le, Nat.le_of_lt pc_lt, fun mem => confined.point ?_⟩
      exact Array.mem_push_of_mem c mem

/-- Putting off an alternative that is in range keeps everything in range. -/
lemma Confined.putOff {alternative : Thread} (sound : s.Sound) (confined : s.Confined p text)
    (pos_le : alternative.pos ≤ text.size) (pc_lt : alternative.pc < p.size) :
    (s.putOff alternative).state.Sound ∧ (s.putOff alternative).state.Confined p text := by
  have leads := sound.putOff alternative
  rw [State.putOff, ChoiceStack.push] at leads ⊢
  by_cases full : s.choices.isFull
  · rw [if_pos full]
    exact ⟨sound, confined⟩
  · rw [if_neg full] at leads ⊢
    cases leads with
    | running sound' _ _ =>
      refine ⟨sound', confined.pos_le, confined.pc_le, fun mem => ?_⟩
      obtain mem | rfl := Array.mem_push.mp mem
      · exact confined.point mem
      · exact ⟨pos_le, pc_lt⟩

/-- What a move does to the saved positions keeps everything in range. -/
lemma Confined.useMarks (sound : s.Sound) (confined : s.Confined p text) (use : MarkUse) :
    (s.useMarks use).Sound ∧ (s.useMarks use).Confined p text := by
  obtain ⟨sound', _, _, choices⟩ := sound.useMarks use
  have thread := s.thread_useMarks use
  refine ⟨sound', ?_, ?_, fun mem => confined.point ?_⟩
  · rw [thread]
    exact confined.pos_le
  · rw [thread]
    exact confined.pc_le
  · rw [← choices]
    exact mem

/-- A thread that goes on in range keeps everything in range. -/
lemma Confined.goto {next : Thread} (sound : s.Sound) (confined : s.Confined p text) (use : MarkUse)
    (pos_le : next.pos ≤ text.size) (pc_le : next.pc ≤ p.size) :
    State.Sound { s.useMarks use with thread := next } ∧
      State.Confined { s.useMarks use with thread := next } p text := by
  obtain ⟨sound', confined'⟩ := confined.useMarks sound use
  exact ⟨sound', pos_le, pc_le, confined'.point⟩

/-- Whatever a visit can come to, carrying the move out keeps everything in range. -/
lemma Confined.perform {move : Move} (sound : s.Sound) (confined : s.Confined p text)
    (gives : p.Gives text s.here (move.visit s.here)) :
    (s.perform move).state.Sound ∧ (s.perform move).state.Confined p text := by
  cases move with
  | fail => exact confined.backtrack sound
  | accept use | corrupt use defect => exact confined.useMarks sound use
  | goto use next =>
    obtain ⟨⟨pos_le, pc_le⟩, _⟩ := gives.inBounds
    exact confined.goto sound use pos_le pc_le
  | fork use next alternative =>
    obtain ⟨⟨pos_le, pc_le⟩, rest⟩ := gives.inBounds
    obtain ⟨sound', confined'⟩ := confined.goto sound use pos_le pc_le
    obtain ⟨pos_le', pc_lt⟩ := rest _ List.mem_cons_self
    exact confined'.putOff sound' pos_le' pc_lt

end State

/-- A step keeps a state in range, also the last one. -/
lemma Search.inBounds_step (search : Search) {s : State} (sound : s.Sound)
    (confined : s.Confined search.program search.text) :
    (search.step s).state.Sound ∧ (search.step s).state.Confined search.program search.text := by
  have gives := Program.gives_visit (p := search.program) (c := s.here) confined.pos_le
  -- counting and reporting the step touches nothing that has bounds
  have counted (log) : State.Confined { s with steps := s.steps + 1, log } search.program search.text :=
    ⟨confined.pos_le, confined.pc_le, confined.point⟩
  rw [Program.visit, Program.visitBy] at gives
  cases at_pc : search.program.instr? s.thread.pc with
  | none =>
    rw [search.step_of_none at_pc]
    exact ⟨sound, counted s.log⟩
  | some instr =>
    obtain ⟨log, step⟩ := search.step_of_some at_pc
    simp only [State.here, at_pc, ← sound.linked.newest?_map_pos] at gives
    rw [step]
    exact State.Confined.perform sound (counted log) gives

namespace Matcher

variable {m : Matcher} {p : Program} {text : Text} {s : State}

/-- In every state that a run reaches everything is in range. -/
lemma Reaches.confined (reaches : m.Reaches p text s) : s.Sound ∧ s.Confined p text := by
  refine Search.Reaches.keeps (I := fun s => s.Sound ∧ s.Confined p text) reaches ?_ ?_
  · rintro s ⟨sound, confined⟩
    exact Search.inBounds_step (m.search p text) sound confined
  · obtain ⟨sound, _⟩ := sound_start m.choices m.marks
    exact ⟨sound, Nat.zero_le _, Nat.zero_le _, nofun⟩

/-- Whatever the program, everything is in range in all states that a run reaches and after the step that ends
it. No guard of a step fails, nor does one when all saved positions are read. -/
theorem inBounds_of_reaches (reaches : m.Reaches p text s) :
    s.InBounds p text ∧ ((m.search p text).step s).state.InBounds p text ∧
      (m.search p text).step? s = some ((m.search p text).step s) ∧ s.marks.Reads s.marks.toList := by
  obtain ⟨sound, confined⟩ := reaches.confined
  obtain ⟨sound', confined'⟩ := Search.inBounds_step (m.search p text) sound confined
  exact ⟨sound.inBounds confined, sound'.inBounds confined', Search.step?_eq sound confined.pos_le,
    sound.linked.reads⟩

/-- A program that jumps far behind its end after it has saved a position and put off a thread. -/
theorem inBounds_of_reaches_malformed :
    let p : Program := ⟨#[.savePos, .byteClass 0 false, .jumpIfAdvanced 100], #[ByteSet.empty.insert 97]⟩
    let m := Matcher.ofConfig ⟨0, .none⟩
    ∃ s t, m.Reaches p #[97] s ∧ s.InBounds p #[97] ∧ t.InBounds p #[97] ∧
      (m.search p #[97]).step? s = some (.halted (.error (.corrupt 2 (.jumpOutOfRange 102 3))) t) ∧
      s.marks.Reads s.marks.toList := by
  intro p m
  have corrupt : (m.test 10 p #[97]).map Outcome.verdict =
      some (.error (.corrupt 2 (.jumpOutOfRange 102 3))) := by
    decide +kernel
  obtain ⟨o, test, verdict⟩ := Option.map_eq_some_iff.mp corrupt
  obtain ⟨s, t, reaches, halts, _⟩ := exists_reaches_of_corrupt test verdict
  obtain ⟨before, after, guarded, reads⟩ := inBounds_of_reaches reaches
  rw [halts] at after guarded
  exact ⟨s, t, reaches, before, after, guarded, reads⟩

end Matcher

end PatternVM
