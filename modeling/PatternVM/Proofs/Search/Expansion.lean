import PatternVM.Proofs.Program.Expansion
import PatternVM.Proofs.Search.Blocks

/-!
# Searches of expanded programs

An expanded program accepts the same texts as the original one, if each block does what the instruction does that
it replaces (`Program.accepts_expand`).

A step of the original program is made by crossing a block. Conversely, a step of the expanded program either stays
inside the block of the present instruction, or it completes a step of the original one. `Program.Inside` says which
part of a block has been crossed, so that each step has to be looked at only once.
-/

namespace PatternVM.Program

variable {p : Program} {text : Text} {instr : Instr} {block before after : List Instr} {c c' d d' : Place}
variable {offset : Int32} {blocks : Blocks} {added : Array ByteSet} {pc dest : Nat}

/-- The place at which the block of the present instruction begins. -/
def enter (p : Program) (blocks : Blocks) (c : Place) : Place := c.goto (p.entry blocks c.thread.pc)

/-- An instruction of a closed program does the same with more classes in the table. -/
lemma Closed.performs_expand_iff (closed : p.Closed) (at_pc : p.instr? pc = some instr) :
    (p.expand blocks added).Performs text instr c c' ↔ p.Performs text instr c c' := by
  refine or_congr_left ⟨?_, ?_⟩
  · refine Takes.of_spells fun atEnd bytes spells => ?_
    cases spells with
    | literal => exact .literal
    | byteClass found mem =>
      obtain ⟨set, found'⟩ := Option.isSome_iff_exists.mp (closed.class_isSome at_pc)
      rw [class?_expand found'] at found
      cases found
      exact .byteClass found' mem
    | anyByte => exact .anyByte
  · refine Takes.of_spells fun atEnd bytes spells => ?_
    cases spells with
    | literal => exact .literal
    | byteClass found mem => exact .byteClass (class?_expand found) mem
    | anyByte => exact .anyByte

/-! ## Relocated jumps -/

/-- A jump leads from the entry of its own block to that of its target. -/
lemma JumpsFit.jumpsTo_enter_iff (fit : p.JumpsFit blocks) (at_pc : p.instr? c.thread.pc = some instr)
    (jumps : instr.offset? = some offset) (resolved : p.target c.thread.pc offset = .ok dest) :
    (p.enter blocks c).JumpsTo
        (offsetTo (p.entry blocks c.thread.pc) (p.targetEntry blocks c.thread.pc offset)) d ↔
      ∃ c', c.JumpsTo offset c' ∧ d = p.enter blocks c' := by
  have leads := fit.add_toInt_offsetTo at_pc jumps resolved
  constructor
  · rintro ⟨target, leads', rfl⟩
    obtain rfl : target = p.entry blocks dest := by
      have same : ((p.enter blocks c).thread.pc : Int) = p.entry blocks c.thread.pc := rfl
      omega
    exact ⟨c.goto dest, (jumpsTo_iff resolved).mpr rfl, rfl⟩
  · rintro ⟨c', leads', rfl⟩
    rw [jumpsTo_iff resolved] at leads'
    obtain rfl := leads'
    exact ⟨p.entry blocks dest, leads, rfl⟩

/-- Behind an instruction that is alone in its block, the next block begins. -/
lemma enter_next (at_pc : p.instr? c.thread.pc = some instr) (alone : blocks c.thread.pc instr = [instr]) :
    (p.enter blocks c).goto ((p.enter blocks c).thread.pc + 1) = p.enter blocks (c.goto (c.thread.pc + 1)) := by
  have behind : p.entry blocks (c.thread.pc + 1) = p.entry blocks c.thread.pc + 1 := by
    rw [entry_succ at_pc, alone, List.length_singleton]
  exact congrArg c.goto behind.symm

/-- Both ways of a jump lead from the entry of its block, if it is alone there, to the entries of other blocks. -/
lemma JumpsFit.ways_enter_iff (fit : p.JumpsFit blocks) (at_pc : p.instr? c.thread.pc = some instr)
    (alone : blocks c.thread.pc instr = [instr]) (jumps : instr.offset? = some offset)
    (resolved : p.target c.thread.pc offset = .ok dest) :
    d = (p.enter blocks c).goto ((p.enter blocks c).thread.pc + 1) ∨ (p.enter blocks c).JumpsTo
        (offsetTo (p.entry blocks c.thread.pc) (p.targetEntry blocks c.thread.pc offset)) d ↔
      ∃ c', (c' = c.goto (c.thread.pc + 1) ∨ c.JumpsTo offset c') ∧ d = p.enter blocks c' := by
  rw [enter_next at_pc alone, fit.jumpsTo_enter_iff at_pc jumps resolved]
  simp only [or_and_right, exists_or, exists_eq_left]

/-- A jump that is alone in its block does after its relocation what it did before. -/
lemma JumpsFit.passes_enter_iff (fit : p.JumpsFit blocks) (closed : p.Closed)
    (at_pc : p.instr? c.thread.pc = some instr) (alone : blocks c.thread.pc instr = [instr])
    (jumps : instr.offset? = some offset) :
    text.Passes (p.relocated blocks c.thread.pc instr) (p.enter blocks c) d ↔
      ∃ c', text.Passes instr c c' ∧ d = p.enter blocks c' := by
  obtain ⟨dest, resolved⟩ := closed.exists_target at_pc jumps
  cases instr with
  | jump offset =>
    cases jumps
    simp only [relocated, Instr.offset?, Instr.withOffset?, Option.getD_some, Text.passes_jump_iff]
    exact fit.jumpsTo_enter_iff at_pc rfl resolved
  | branchFirst offset =>
    cases jumps
    simp only [relocated, Instr.offset?, Instr.withOffset?, Option.getD_some, Text.passes_branchFirst_iff]
    exact fit.ways_enter_iff at_pc alone rfl resolved
  | jumpFirst offset =>
    cases jumps
    simp only [relocated, Instr.offset?, Instr.withOffset?, Option.getD_some, Text.passes_jumpFirst_iff]
    exact fit.ways_enter_iff at_pc alone rfl resolved
  | jumpIfAdvanced offset =>
    cases jumps
    simp only [relocated, Instr.offset?, Instr.withOffset?, Option.getD_some]
    obtain ⟨t, saved⟩ := c
    cases saved with
    | nil =>
      constructor
      · intro passes
        cases passes
      · rintro ⟨c', passes, _⟩
        cases passes
    | cons q saved =>
      by_cases still : q = t.pos
      · subst still
        simp only [Text.passes_still_iff, exists_eq_left]
        rw [← enter_next (c := ⟨t, saved⟩) at_pc alone]
        exact Text.passes_still_iff
      · simp only [Text.passes_moved_iff still]
        have moved : q ≠ (p.enter blocks ⟨t, saved⟩).thread.pos := still
        exact (Text.passes_moved_iff moved).trans (fit.ways_enter_iff at_pc alone rfl resolved)
  | _ => cases jumps

/-! ## Expanded programs -/

/-- An instruction stays as it is, or is replaced by a block without jumps that does the same. -/
def Faithful (p : Program) (text : Text) (blocks : Blocks) (added : Array ByteSet) : Prop :=
  ∀ pc instr, p.instr? pc = some instr →
    blocks pc instr = [instr] ∨ (p.expand blocks added).Replaces text (blocks pc instr) instr

/-- The block that stands in the expanded program for the instruction at `pc`. -/
def blockOf (p : Program) (blocks : Blocks) (pc : Nat) (instr : Instr) : List Instr :=
  (blocks pc instr).map (p.relocated blocks pc)

/-- Instructions that do not jump stay as they are when they are relocated. -/
lemma relocated_of_straight (straight : instr.offset? = none) : p.relocated blocks pc instr = instr := by
  rw [relocated, straight]

/-- An instruction that jumps still jumps when it is relocated. -/
lemma exists_offset?_relocated (p : Program) (blocks : Blocks) (pc : Nat) (jumps : instr.offset? = some offset) :
    ∃ offset', (p.relocated blocks pc instr).offset? = some offset' := by
  rw [relocated, jumps]
  cases instr <;> first | exact ⟨_, rfl⟩ | cases jumps

/-- Only accepting instructions accept after their relocation. -/
lemma relocated_eq_accept_iff : p.relocated blocks pc instr = .accept ↔ instr = .accept := by
  cases instr <;> simp [relocated, Instr.offset?, Instr.withOffset?]

/-- In a block that replaces an instruction nothing has to be relocated. -/
lemma Replaces.blockOf_eq {q : Program} (replaces : q.Replaces text (blocks pc instr) instr) :
    p.blockOf blocks pc instr = blocks pc instr := by
  have unchanged : ∀ other ∈ blocks pc instr, p.relocated blocks pc other = id other :=
    fun other mem => relocated_of_straight (Instr.offset?_of_isPlain (replaces.plain_block other mem))
  rw [blockOf, List.map_congr_left unchanged, List.map_id]

/-- An instruction that is alone in its block is relocated. -/
lemma blockOf_of_alone (alone : blocks pc instr = [instr]) :
    p.blockOf blocks pc instr = [p.relocated blocks pc instr] := by
  rw [blockOf, alone, List.map_singleton]

namespace Faithful

/-- Only the last instruction of a block may jump. -/
lemma straight_dropLast (faithful : p.Faithful text blocks added) (at_pc : p.instr? pc = some instr) :
    ∀ other ∈ (p.blockOf blocks pc instr).dropLast, other.offset? = none := by
  intro other mem
  rcases faithful pc instr at_pc with alone | replaces
  · rw [blockOf_of_alone alone] at mem
    cases mem
  · rw [replaces.blockOf_eq] at mem
    exact Instr.offset?_of_isPlain (replaces.plain_block other (List.dropLast_subset _ mem))

/-- A block has an accepting instruction only if it consists of nothing else. -/
lemma accept_mem_iff (faithful : p.Faithful text blocks added) (at_pc : p.instr? pc = some instr) :
    .accept ∈ p.blockOf blocks pc instr ↔ instr = .accept := by
  rcases faithful pc instr at_pc with alone | replaces
  · rw [blockOf_of_alone alone, List.mem_singleton, eq_comm, relocated_eq_accept_iff]
  · rw [replaces.blockOf_eq]
    refine iff_of_false (fun mem => Instr.not_isPlain_accept (replaces.plain_block _ mem)) fun accepts => ?_
    exact Instr.not_isPlain_accept (accepts ▸ replaces.plain)

/-- Crossing the block of an instruction without a jump is carrying out the instruction. -/
lemma crosses_iff_of_straight (closed : p.Closed) (at_pc : p.instr? c.thread.pc = some instr)
    (straight : instr.offset? = none)
    (same : ∀ c d, (p.expand blocks added).Crosses text block c d ↔
      ∃ c', (p.expand blocks added).Performs text instr c c' ∧ d = c'.goto (c.thread.pc + block.length))
    (length : (blocks c.thread.pc instr).length = block.length) :
    (p.expand blocks added).Crosses text block (p.enter blocks c) d ↔
      ∃ c', p.Performs text instr c c' ∧ d = p.enter blocks c' := by
  have exit {c'} (performs : p.Performs text instr c c') :
      p.enter blocks c' = c'.goto (p.entry blocks c.thread.pc + block.length) := by
    rw [enter, performs.pc_eq straight, entry_succ at_pc, length]
  rw [same]
  constructor
  · rintro ⟨c₁, performs, rfl⟩
    obtain ⟨c', performs', rfl⟩ := (performs_goto_iff straight).mp performs
    have performs'' := (closed.performs_expand_iff at_pc).mp performs'
    exact ⟨c', performs'', (exit performs'').symm⟩
  · rintro ⟨c', performs, rfl⟩
    have performs' : (p.expand blocks added).Performs text instr c c' :=
      (closed.performs_expand_iff at_pc).mpr performs
    exact ⟨_, performs'.goto straight _, exit performs⟩

/-- Crossing the block of an instruction is carrying out the instruction. -/
lemma crosses_iff (faithful : p.Faithful text blocks added) (fit : p.JumpsFit blocks) (closed : p.Closed)
    (at_pc : p.instr? c.thread.pc = some instr) :
    (p.expand blocks added).Crosses text (p.blockOf blocks c.thread.pc instr) (p.enter blocks c) d ↔
      ∃ c', p.Performs text instr c c' ∧ d = p.enter blocks c' := by
  rcases faithful _ instr at_pc with alone | replaces
  · rw [blockOf_of_alone alone]
    cases jumps : instr.offset? with
    | none =>
      rw [relocated_of_straight jumps]
      refine crosses_iff_of_straight closed at_pc jumps (fun c d => ?_) (congrArg List.length alone)
      rw [crosses_singleton_iff]
      constructor
      · exact fun performs => ⟨d, performs, by rw [List.length_singleton, ← performs.pc_eq jumps]; rfl⟩
      · rintro ⟨c', performs, rfl⟩
        rw [List.length_singleton, ← performs.pc_eq jumps]
        exact performs
    | some offset =>
      obtain ⟨offset', jumps'⟩ := p.exists_offset?_relocated blocks c.thread.pc jumps
      rw [crosses_singleton_iff, performs_jump_iff jumps']
      simp only [performs_jump_iff jumps]
      exact fit.passes_enter_iff closed at_pc alone jumps
  · rw [replaces.blockOf_eq]
    exact crosses_iff_of_straight closed at_pc (Instr.offset?_of_isPlain replaces.plain) replaces.crosses_iff rfl

end Faithful

/-! ## Searches of expanded programs -/

/-- A place from which a program accepts is at an instruction. -/
lemma AcceptsFrom.exists_instr? (accepts : p.AcceptsFrom text c) : ∃ instr, p.instr? c.thread.pc = some instr := by
  obtain at_pc | ⟨c', step, _⟩ := accepts.cases
  · exact ⟨_, at_pc⟩
  · obtain ⟨instr, at_pc, _⟩ := step.performs
    exact ⟨instr, at_pc⟩

/-- If the expanded program accepts from the entry of a block, the block stands for an instruction. -/
lemma exists_instr?_of_enter (accepts : (p.expand blocks added).AcceptsFrom text (p.enter blocks c)) :
    ∃ instr, p.instr? c.thread.pc = some instr := by
  obtain ⟨instr, at_entry⟩ := accepts.exists_instr?
  refine Option.ne_none_iff_exists'.mp fun missing => ?_
  have behind : (p.expand blocks added).instr? (p.enter blocks c).thread.pc = none := instr?_expand_of_none missing
  rw [behind] at at_entry
  cases at_entry

/-- The place `d` is in the block of the instruction at `c`, and part of the block has been crossed. -/
def Inside (p : Program) (text : Text) (blocks : Blocks) (added : Array ByteSet) (c d : Place) : Prop :=
  ∃ instr before after, p.instr? c.thread.pc = some instr ∧ after ≠ [] ∧
    p.blockOf blocks c.thread.pc instr = before ++ after ∧
      (p.expand blocks added).Crosses text before (p.enter blocks c) d

namespace Faithful

/-- The entry of a block is in the block. -/
lemma inside_enter (faithful : p.Faithful text blocks added) (at_pc : p.instr? c.thread.pc = some instr) :
    p.Inside text blocks added c (p.enter blocks c) := by
  refine ⟨instr, [], p.blockOf blocks c.thread.pc instr, at_pc, ?_, rfl, .nil⟩
  rcases faithful _ instr at_pc with alone | replaces
  · rw [blockOf_of_alone alone]
    exact List.cons_ne_nil _ _
  · rw [replaces.blockOf_eq]
    exact replaces.ne_nil

/-- Inside a block stands what has not been crossed yet. -/
lemma after_prefix_drop (faithful : p.Faithful text blocks added) (at_pc : p.instr? c.thread.pc = some instr)
    (ne : after ≠ []) (block : p.blockOf blocks c.thread.pc instr = before ++ after)
    (crosses : (p.expand blocks added).Crosses text before (p.enter blocks c) d) :
    after <+: (p.expand blocks added).code.toList.drop d.thread.pc := by
  have stands := p.block_prefix_drop blocks added at_pc
  have straight := faithful.straight_dropLast at_pc
  rw [block, List.dropLast_append_of_ne_nil ne] at straight
  rw [crosses.pc_eq fun other mem => straight other (List.mem_append_left _ mem)]
  exact prefix_drop_of_append (block ▸ stands)

/-- A step of the expanded program stays inside the block, or completes a step of the program. -/
lemma inside_step (faithful : p.Faithful text blocks added) (fit : p.JumpsFit blocks) (closed : p.Closed)
    (inside : p.Inside text blocks added c d) (step : (p.expand blocks added).Step text d d') :
    p.Inside text blocks added c d' ∨ ∃ c', p.Step text c c' ∧ d' = p.enter blocks c' := by
  obtain ⟨instr, before, after, at_pc, ne, block, crosses⟩ := inside
  have stands := faithful.after_prefix_drop at_pc ne block crosses
  cases after with
  | nil => exact absurd rfl ne
  | cons present after =>
    have performs := (step_iff (instr?_of_prefix_drop stands)).mp step
    have crosses' := crosses.snoc performs
    cases after with
    | nil =>
      rw [← block, faithful.crosses_iff fit closed at_pc] at crosses'
      obtain ⟨c', performs', rfl⟩ := crosses'
      exact .inr ⟨c', (step_iff at_pc).mpr performs', rfl⟩
    | cons second after =>
      refine .inl ⟨instr, before ++ [present], second :: after, at_pc, List.cons_ne_nil _ _, ?_, crosses'⟩
      rw [block, List.append_assoc, List.singleton_append]

/-- Only the block of an accepting instruction accepts. -/
lemma accept_of_inside (faithful : p.Faithful text blocks added) (inside : p.Inside text blocks added c d)
    (accepts : (p.expand blocks added).instr? d.thread.pc = some .accept) :
    p.instr? c.thread.pc = some .accept := by
  obtain ⟨instr, before, after, at_pc, ne, block, crosses⟩ := inside
  have stands := faithful.after_prefix_drop at_pc ne block crosses
  cases after with
  | nil => exact absurd rfl ne
  | cons present after =>
    rw [instr?_of_prefix_drop stands, Option.some.injEq] at accepts
    have mem : .accept ∈ p.blockOf blocks c.thread.pc instr := by
      rw [block, accepts]
      exact List.mem_append_right _ List.mem_cons_self
    rw [at_pc, (faithful.accept_mem_iff at_pc).mp mem]

/-- From inside a block a place that accepts is reached only if the program reaches one too. -/
lemma acceptsFrom_of_inside (faithful : p.Faithful text blocks added) (fit : p.JumpsFit blocks)
    (closed : p.Closed) (inside : p.Inside text blocks added c d)
    (accepts : (p.expand blocks added).AcceptsFrom text d) : p.AcceptsFrom text c := by
  obtain ⟨last, steps, accepts⟩ := accepts
  induction steps using Relation.ReflTransGen.head_induction_on generalizing c with
  | refl => exact acceptsFrom_of_accept (faithful.accept_of_inside inside accepts)
  | head step steps ih =>
    obtain stays | ⟨c', completed, rfl⟩ := faithful.inside_step fit closed inside step
    · exact ih stays
    · obtain ⟨instr, at_pc⟩ := exists_instr?_of_enter ⟨last, steps, accepts⟩
      exact completed.acceptsFrom (ih (faithful.inside_enter at_pc))

/-- Where the program reaches a place that accepts, so does the expanded program. -/
lemma acceptsFrom_enter (faithful : p.Faithful text blocks added) (fit : p.JumpsFit blocks)
    (closed : p.Closed) (accepts : p.AcceptsFrom text c) :
    (p.expand blocks added).AcceptsFrom text (p.enter blocks c) := by
  obtain ⟨last, steps, accepts⟩ := accepts
  have stands {c : Place} {instr : Instr} (at_pc : p.instr? c.thread.pc = some instr) :=
    p.block_prefix_drop blocks added at_pc
  induction steps using Relation.ReflTransGen.head_induction_on with
  | refl =>
    rcases faithful _ _ accepts with alone | replaces
    · have stands := stands accepts
      rw [alone] at stands
      exact acceptsFrom_of_accept (instr?_of_prefix_drop stands)
    · exact absurd replaces.plain Instr.not_isPlain_accept
  | head step _ ih =>
    obtain ⟨instr, at_pc, performs⟩ := step.performs
    have crosses := (faithful.crosses_iff fit closed at_pc).mpr ⟨_, performs, rfl⟩
    exact crosses.acceptsFrom (faithful.straight_dropLast at_pc) (stands at_pc) ih

end Faithful

/-- A program whose instructions have been replaced by blocks that do the same accepts the same texts. -/
theorem accepts_expand (faithful : p.Faithful text blocks added) (fit : p.JumpsFit blocks) (closed : p.Closed) :
    (p.expand blocks added).Accepts text ↔ p.Accepts text := by
  constructor
  · intro accepts
    obtain ⟨instr, at_pc⟩ := exists_instr?_of_enter (c := .start) accepts
    exact faithful.acceptsFrom_of_inside fit closed (faithful.inside_enter at_pc) accepts
  · exact faithful.acceptsFrom_enter fit closed

end PatternVM.Program
