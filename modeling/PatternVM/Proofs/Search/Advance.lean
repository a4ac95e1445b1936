import PatternVM.Proofs.Search.Reached

/-!
# Advance

A search goes back to earlier cursors whenever it fails, but no thread ever does. So the positions that a thread has
saved lie at its cursor or in front of it, the newest one last, and what a choice point would bring back is in the same
order (`Matcher.ordered_of_passes`). All places that are still to be visited have been opened by visits, one after
another from the start (`Matcher.Reaches.opened`), and it is along these paths that the order is kept.

The same paths tell which `savePos` a saved position comes from: the last one on the path whose position has been on
the stack ever since (`Program.Saves`). A `jumpIfAdvanced` moves on exactly if the cursor is beyond that position.
-/

namespace PatternVM

/-- The saved positions of a place, newest first, do not increase, and none of them is beyond the cursor. -/
def Place.Ordered (c : Place) : Prop := (c.thread.pos :: c.saved).Pairwise (· ≥ ·)

namespace Program

/-- A visit to `c` opens `c'`. -/
def Opens (p : Program) (text : Text) (c c' : Place) : Prop :=
  ∃ places, p.visit text c = .opened places ∧ c' ∈ places

/-- Visits that begin at the start lead to `c`. -/
def Opened (p : Program) (text : Text) (c : Place) : Prop := Relation.ReflTransGen (p.Opens text) .start c

/-- The saved positions that there may be after a visit to `c`. -/
inductive Leaves (p : Program) (c : Place) : List Nat → Prop where
  | keep :
    Leaves p c c.saved
  | save :
    p.instr? c.thread.pc = some .savePos →
    Leaves p c (c.thread.pos :: c.saved)
  | drop :
    Leaves p c c.saved.tail

/-- A visit to `c` ends the search, and leaves the thread of `c` with the saved positions of `c'`. -/
def Ends (p : Program) (text : Text) (c c' : Place) : Prop :=
  ∃ instr verdict, p.instr? c.thread.pc = some instr ∧ p.visit text c = .settled verdict ∧
    c' = ⟨c.thread, (p.move text c.thread c.saved.head? instr).use.on c.saved⟩

/-- The place `c` is `b` before the visit to it, or it is what a visit to `b` that ends the search leaves. -/
def Remains (p : Program) (text : Text) (b c : Place) : Prop := c = b ∨ p.Ends text b c

/-- Visits lead from `saver` to `c`, and all the way the positions `saved` have been at the bottom of the stack. -/
def Keeps (p : Program) (text : Text) (saved : List Nat) : Place → Place → Prop :=
  Relation.ReflTransGen fun a b => p.Opens text a b ∧ saved <:+ b.saved

/-- The newest position saved at `c` is the one that the `savePos` at `saver` has saved. It has been on the stack ever
since, and whatever was saved on top of it has been taken off again, by the instruction that has ended the search if
need be. -/
structure Saves (p : Program) (text : Text) (saver c : Place) : Prop where
  opened : p.Opened text saver
  at_pc : p.instr? saver.thread.pc = some .savePos
  keeps : ∃ b, p.Keeps text (saver.thread.pos :: saver.saved) saver b ∧ p.Remains text b c
  saved : c.saved = saver.thread.pos :: saver.saved

variable {p : Program} {text : Text} {c c' saver : Place} {saved : List Nat}

/-- A visit never takes the cursor back, and changes the saved positions at the newest end only. -/
lemma Opens.leaves (opens : p.Opens text c c') (within : c.thread.pos ≤ text.size) :
    c.thread.pos ≤ c'.thread.pos ∧ c'.thread.pos ≤ text.size ∧ p.Leaves c c'.saved := by
  obtain ⟨places, opened, mem⟩ := opens
  obtain ⟨instr, at_pc, onward | ⟨q, lt, le, rfl⟩⟩ := onward_of_opened within opened mem
  · refine ⟨onward.pos_le, onward.within, ?_⟩
    rw [onward.saved]
    cases instr with
    | savePos => exact .save at_pc
    | jumpIfAdvanced offset => exact .drop
    | _ => exact .keep
  · exact ⟨Nat.le_of_lt lt, le, .keep⟩

/-- A visit that ends the search changes the saved positions as other visits do, and the cursor stays where it is. -/
lemma Ends.leaves (ends : p.Ends text c c') : c'.thread = c.thread ∧ p.Leaves c c'.saved := by
  obtain ⟨instr, verdict, at_pc, _, rfl⟩ := ends
  refine ⟨rfl, ?_⟩
  simp only
  obtain keeps | uses := p.use_move text c.thread c.saved.head? instr
  · rw [keeps]
    exact .keep
  · rw [uses]
    cases instr with
    | savePos => exact .save at_pc
    | jumpIfAdvanced offset => exact .drop
    | _ => exact .keep

/-- A visit that does not take the cursor back keeps the saved positions in order. -/
lemma Leaves.ordered (leaves : p.Leaves c c'.saved) (le : c.thread.pos ≤ c'.thread.pos) (ordered : c.Ordered) :
    c'.Ordered := by
  obtain ⟨below, sorted⟩ := List.pairwise_cons.mp ordered
  have reaches {q : Nat} (mem : q ∈ c.saved) : q ≤ c'.thread.pos := Nat.le_trans (below q mem) le
  rw [Place.Ordered, List.pairwise_cons]
  generalize c'.saved = saved at leaves
  cases leaves with
  | keep => exact ⟨fun q => reaches, sorted⟩
  | save _ =>
    refine ⟨fun q mem => ?_, ordered⟩
    obtain rfl | mem := List.mem_cons.mp mem
    · exact le
    · exact reaches mem
  | drop => exact ⟨fun q mem => reaches (List.mem_of_mem_tail mem), sorted.tail⟩

/-- A fault is laid to the instruction that is visited. -/
lemma pc_of_corrupt {pc : Nat} {defect : Defect} (visit : p.visit text c = .settled (.error (.corrupt pc defect))) :
    c.thread.pc = pc := by
  rw [Program.visit, Program.visitBy] at visit
  split at visit
  · cases visit
    rfl
  · generalize p.move text c.thread c.saved.head? _ = move at visit
    cases move with
    | corrupt use own =>
      cases visit
      rfl
    | _ => cases visit

/-- However the visits go on, the saved positions stay in order. -/
lemma Opened.ordered (opened : p.Opened text c) : c.thread.pos ≤ text.size ∧ c.Ordered := by
  induction opened with
  | refl => exact ⟨Nat.zero_le _, List.pairwise_singleton ..⟩
  | tail _ opens ih =>
    obtain ⟨within, ordered⟩ := ih
    obtain ⟨le, within', leaves⟩ := opens.leaves within
    exact ⟨within', leaves.ordered le ordered⟩

/-- So they do if a visit ends the search. -/
lemma Opened.ordered_remains (opened : p.Opened text c) (remains : p.Remains text c c') : c'.Ordered := by
  obtain ⟨_, ordered⟩ := Opened.ordered opened
  obtain rfl | ends := remains
  · exact ordered
  · obtain ⟨thread, leaves⟩ := ends.leaves
    exact leaves.ordered (Nat.le_of_eq (congrArg Thread.pos thread.symm)) ordered

/-- Every saved position comes from a `savePos` on the way, and has been on the stack since then. -/
lemma Opened.exists_saver (opened : p.Opened text c) {q : Nat} {older : List Nat} (mem : (q :: older) <:+ c.saved) :
    ∃ saver, p.Opened text saver ∧ p.instr? saver.thread.pc = some .savePos ∧ saver.thread.pos = q ∧
      saver.saved = older ∧ p.Keeps text (q :: older) saver c := by
  induction opened with
  | refl => cases List.suffix_nil.mp mem
  | @tail c c' opened opens ih =>
    obtain ⟨within, _⟩ := Opened.ordered opened
    obtain ⟨_, _, leaves⟩ := opens.leaves within
    -- a position that was saved before the visit has been kept by it
    have before (mem' : (q :: older) <:+ c.saved) : ∃ saver, p.Opened text saver ∧
        p.instr? saver.thread.pc = some .savePos ∧ saver.thread.pos = q ∧ saver.saved = older ∧
        p.Keeps text (q :: older) saver c' := by
      obtain ⟨saver, opened', at_pc, pos, saved, keeps⟩ := ih mem'
      exact ⟨saver, opened', at_pc, pos, saved, keeps.tail ⟨opens, mem⟩⟩
    generalize stack : c'.saved = saved at leaves
    cases leaves with
    | keep => exact before (stack ▸ mem)
    | drop => exact before ((stack ▸ mem).trans (List.tail_suffix _))
    | save at_pc =>
      obtain same | older_mem := List.suffix_cons_iff.mp (stack ▸ mem)
      · obtain ⟨rfl, rfl⟩ := List.cons.inj same
        exact ⟨c, opened, at_pc, rfl, rfl, .single ⟨opens, mem⟩⟩
      · exact before older_mem

/-- Before a visit and after the search has ended, the newest saved position comes from a `savePos` on the way. -/
lemma Opened.exists_saves (opened : p.Opened text c) (remains : p.Remains text c c') (some : c'.saved ≠ []) :
    ∃ saver, p.Saves text saver c' := by
  obtain ⟨q, older, stack⟩ := List.exists_cons_of_ne_nil some
  -- a position that was saved before the visit
  have before (mem : c'.saved <:+ c.saved) : ∃ saver, p.Saves text saver c' := by
    obtain ⟨saver, opened', at_pc, rfl, rfl, keeps⟩ := opened.exists_saver (stack ▸ mem)
    exact ⟨saver, opened', at_pc, ⟨c, keeps, remains⟩, stack⟩
  obtain rfl | ends := remains
  · exact before (List.suffix_refl _)
  · obtain ⟨_, leaves⟩ := ends.leaves
    generalize left : c'.saved = saved at leaves
    cases leaves with
    | keep => exact before (left ▸ List.suffix_refl _)
    | drop => exact before (left ▸ List.tail_suffix _)
    | save at_pc => exact ⟨c, opened, at_pc, ⟨c, .refl, .inr ends⟩, left⟩

end Program

namespace State

variable {s : State}

/-- What a choice point would bring back is a place of the agenda. -/
lemma Sound.restored_mem_agenda {c : ChoicePoint} (sound : s.Sound) (mem : c ∈ s.choices.points) :
    (⟨c.thread, (s.marks.restore c.saved).toList⟩ : Place) ∈ s.agenda := by
  have point : c ∈ s.choices.points.toList.reverse := List.mem_reverse.mpr (Array.mem_toList_iff.mpr mem)
  rw [sound.toList_restore (List.mem_map_of_mem point)]
  exact List.mem_cons_of_mem _ (List.mem_map_of_mem point)

/-- Where a move ends the search, the places of the last state have been there before, or the move has opened them, or
it has left them of the present place. -/
lemma Sound.of_halted (sound : s.Sound) {move : Move} {verdict : Verdict} {t : State}
    (halts : s.perform move = .halted verdict t) :
    t.Sound ∧ ∀ c ∈ t.agenda, c ∈ s.agenda ∨ (∃ places, move.visit s.here = .opened places ∧ c ∈ places) ∨
      ∃ own, move.visit s.here = .settled own ∧ c = ⟨s.thread, move.use.on s.marks.toList⟩ := by
  cases move with
  | fail =>
    obtain ⟨thread, ⟨points, capacity, limit, peak⟩, marks, steps, backtracks, log⟩ := s
    simp only [State.perform, State.backtrack, ChoiceStack.pop] at halts
    cases e : points.back? with
    | none =>
      obtain rfl := Array.back?_eq_none_iff.mp e
      cases halts
      exact ⟨sound, fun c mem => .inl mem⟩
    | some c =>
      rw [e] at halts
      cases halts
  | accept use | corrupt use defect =>
    cases halts
    obtain ⟨sound', saved, deferred, _⟩ := sound.useMarks use
    refine ⟨sound', fun c mem => ?_⟩
    obtain rfl | mem := List.mem_cons.mp mem
    · refine .inr (.inr ⟨_, rfl, ?_⟩)
      rw [State.here, thread_useMarks, saved]
      rfl
    · exact .inl (List.mem_cons_of_mem _ (deferred ▸ mem))
  | goto use next => cases halts
  | fork use next alternative =>
    obtain ⟨sound', saved, deferred, choices⟩ := sound.useMarks use
    rw [State.perform, State.putOff, ChoiceStack.push] at halts
    by_cases full : (s.useMarks use).choices.isFull
    · rw [if_pos full] at halts
      cases halts
      refine ⟨sound', fun c mem => ?_⟩
      obtain rfl | mem := List.mem_cons.mp mem
      · exact .inr (.inl ⟨_, rfl, by simp [State.here, saved]⟩)
      · exact .inl (List.mem_cons_of_mem _ (deferred ▸ mem))
    · rw [if_neg full] at halts
      cases halts

end State

namespace Matcher

variable {m : Matcher} {p : Program} {text : Text} {s : State}

/-- Everything on the agenda of a reached state has been opened by visits. -/
lemma Reaches.opened (reaches : m.Reaches p text s) : s.Sound ∧ ∀ c ∈ s.agenda, p.Opened text c := by
  refine reaches.agenda (I := fun agenda => ∀ c ∈ agenda, p.Opened text c) ?_ ?_
  · intro c mem
    obtain rfl := List.mem_singleton.mp mem
    exact .refl
  · intro c rest places holds opened c' mem
    obtain mem | mem := List.mem_append.mp mem
    · exact (holds c List.mem_cons_self).tail ⟨places, opened, mem⟩
    · exact holds c' (List.mem_cons_of_mem c mem)

/-- A matcher that runs a program passes through the state `s` before one of its steps, or ends in it. -/
def Passes (m : Matcher) (p : Program) (text : Text) (s : State) : Prop :=
  m.Reaches p text s ∨ ∃ last verdict, m.Reaches p text last ∧ (m.search p text).step last = .halted verdict s

/-- The same holds of the state that a run ends in, but for what the last move has done to the saved positions of the
present place. -/
lemma Passes.opened (passes : m.Passes p text s) :
    s.Sound ∧ ∀ c ∈ s.agenda, ∃ b, p.Opened text b ∧ p.Remains text b c := by
  obtain reaches | ⟨last, verdict, reaches, halts⟩ := passes
  · obtain ⟨sound, opened⟩ := reaches.opened
    exact ⟨sound, fun c mem => ⟨c, opened c mem, .inl rfl⟩⟩
  · obtain ⟨sound, opened⟩ := reaches.opened
    cases at_pc : p.instr? last.thread.pc with
    | none =>
      rw [Search.step_of_none _ at_pc] at halts
      cases halts
      exact ⟨sound, fun c mem => ⟨c, opened c mem, .inl rfl⟩⟩
    | some instr =>
      obtain ⟨log, step⟩ := Search.step_of_some (m.search p text) at_pc
      rw [step] at halts
      obtain ⟨sound', places⟩ := State.Sound.of_halted (s := { last with steps := last.steps + 1, log }) sound halts
      have here := opened last.here List.mem_cons_self
      have visits : p.visit text last.here =
          (p.move text last.thread last.marks.toList.head? instr).visit last.here := by
        simp only [Program.visit, Program.visitBy, State.here, at_pc]
      refine ⟨sound', fun c mem => ?_⟩
      have place := places c mem
      rw [sound.linked.newest?_map_pos] at place
      obtain before | ⟨new, visit, mem⟩ | ⟨own, visit, rfl⟩ := place
      · exact ⟨c, opened c before, .inl rfl⟩
      · exact ⟨c, here.tail ⟨new, visits.trans visit, mem⟩, .inl rfl⟩
      · exact ⟨last.here, here, .inr ⟨instr, own, at_pc, visits.trans visit, rfl⟩⟩

/-- In every state of a run, also the last one, the saved positions are in order and none is beyond the cursor, and so
are those that any choice point would bring back, with its own cursor. The newest one has been saved by a `savePos`,
and wherever that was, a check finds that the cursor has moved exactly if it is strictly beyond the position. Then,
and only then, a `jumpIfAdvanced` jumps. -/
theorem ordered_of_passes (passes : m.Passes p text s) :
    (s.thread.pos :: s.marks.toList).Pairwise (· ≥ ·) ∧
      (∀ c ∈ s.choices.points, (c.thread.pos :: (s.marks.restore c.saved).toList).Pairwise (· ≥ ·)) ∧
      (s.marks.toList ≠ [] → ∃ saver, p.Saves text saver s.here) ∧
      ∀ saver, p.Saves text saver s.here →
        ((s.marks.check s.thread.pos s.choices.depth).1 = some .moved ↔ saver.thread.pos < s.thread.pos) ∧
        ((s.marks.check s.thread.pos s.choices.depth).1 = some .still ↔ saver.thread.pos = s.thread.pos) ∧
        ∀ offset, p.move text s.thread (s.marks.newest?.map Mark.pos) (.jumpIfAdvanced offset) =
          if saver.thread.pos < s.thread.pos then p.moveToTarget s.thread offset .drop
          else .goto .drop { s.thread with pc := s.thread.pc + 1 } := by
  obtain ⟨sound, opened⟩ := passes.opened
  obtain ⟨b, here, remains⟩ := opened s.here List.mem_cons_self
  have ordered : s.here.Ordered := here.ordered_remains remains
  refine ⟨ordered, fun c mem => ?_, here.exists_saves remains, fun saver saves => ?_⟩
  · obtain ⟨_, place, rest⟩ := opened _ (sound.restored_mem_agenda mem)
    exact place.ordered_remains rest
  · have stack : s.here.saved = saver.thread.pos :: saver.saved := saves.saved
    have le : saver.thread.pos ≤ s.thread.pos := List.rel_of_pairwise_cons ordered (stack ▸ List.mem_cons_self)
    have newest : s.marks.newest?.map Mark.pos = some saver.thread.pos := by
      rw [sound.linked.newest?_map_pos]
      exact congrArg List.head? stack
    have answer : (s.marks.check s.thread.pos s.choices.depth).1 = some (.since saver.thread.pos s.thread.pos) := by
      rw [MarkStack.check_eq_since, newest]
      rfl
    rw [answer, newest]
    rcases Nat.lt_or_eq_of_le le with lt | eq
    · have moved : Motion.since saver.thread.pos s.thread.pos = .moved := if_neg (Nat.ne_of_lt lt)
      rw [moved]
      refine ⟨iff_of_true rfl lt, iff_of_false (by decide) (Nat.ne_of_lt lt), fun offset => ?_⟩
      simp only [Program.move, Option.map_some, moved, if_pos lt]
    · have still : Motion.since saver.thread.pos s.thread.pos = .still := if_pos eq
      have not_lt : ¬ saver.thread.pos < s.thread.pos := Nat.not_lt.mpr (Nat.le_of_eq eq.symm)
      rw [still]
      refine ⟨iff_of_false (by decide) not_lt, iff_of_true rfl eq, fun offset => ?_⟩
      simp only [Program.move, Option.map_some, still, if_neg not_lt]

/-- A `jumpIfAdvanced` behind a byte that was taken since its position was saved. It jumps, though out of the
program. -/
theorem ordered_of_passes_advanced :
    let p : Program := ⟨#[.savePos, .byteClass 0 false, .jumpIfAdvanced 100], #[ByteSet.empty.insert 97]⟩
    let m := Matcher.ofConfig ⟨0, .none⟩
    ∃ s saver, m.Passes p #[98, 97] s ∧ s.thread.pc = 2 ∧ p.Saves #[98, 97] saver s.here ∧
      saver.thread.pos < s.thread.pos ∧ (s.marks.check s.thread.pos s.choices.depth).1 = some .moved := by
  intro p m
  have corrupt : (m.test 10 p #[98, 97]).map Outcome.verdict = some (.error (.corrupt 2 (.jumpOutOfRange 102 3))) := by
    decide +kernel
  obtain ⟨o, test, verdict⟩ := Option.map_eq_some_iff.mp corrupt
  obtain ⟨s, _, reaches, _, visit⟩ := exists_reaches_of_corrupt test verdict
  have pc : s.thread.pc = 2 := Program.pc_of_corrupt visit
  obtain ⟨sound, _⟩ := reaches.opened
  obtain ⟨_, _, saved, checks⟩ := ordered_of_passes (.inl reaches)
  have visited : p.visit #[98, 97] s.here = (p.move #[98, 97] s.thread (s.marks.newest?.map Mark.pos)
      (.jumpIfAdvanced 100)).visit s.here := by
    rw [sound.linked.newest?_map_pos]
    simp only [Program.visit, Program.visitBy, State.here, pc]
    rfl
  rw [visited] at visit
  -- with nothing saved the fault would be another one
  obtain ⟨saver, saves⟩ := saved fun none => by
    rw [sound.linked.newest?_map_pos, none] at visit
    simp [Program.move, Move.visit] at visit
  obtain ⟨moved, _, move⟩ := checks saver saves
  have lt : saver.thread.pos < s.thread.pos := by
    by_contra still
    rw [move, if_neg still] at visit
    cases visit
  exact ⟨s, saver, .inl reaches, pc, saves, lt, moved.mpr lt⟩

end Matcher

end PatternVM
