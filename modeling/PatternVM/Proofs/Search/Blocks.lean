import PatternVM.Proofs.Search.Reachability

/-!
# Blocks

Instructions that are carried out one after another. `Program.Performs` says what one instruction does, whether or not
it stands at the place where it is carried out, and `Program.Crosses` what a block of them does. As long as no
instruction but the last one jumps, a block that stands in a program is crossed by steps of the program.
-/

namespace PatternVM

/-- Whether an instruction neither jumps nor accepts. -/
def Instr.isPlain (instr : Instr) : Bool := instr.offset?.isNone && !instr.isAccept

/-- A plain instruction does not jump. -/
lemma Instr.offset?_of_isPlain {instr : Instr} (plain : instr.isPlain) : instr.offset? = none :=
  Option.isNone_iff_eq_none.mp (Bool.and_eq_true_iff.mp plain).1

/-- An accepting instruction is not plain. -/
lemma Instr.not_isPlain_accept : ¬ accept.isPlain := Bool.false_ne_true

namespace Program

/-- An instruction is carried out at a place, whether or not it stands there. -/
def Performs (p : Program) (text : Text) (instr : Instr) (c c' : Place) : Prop :=
  p.Takes text instr c c' ∨ text.Passes instr c c'

/-- The instructions of a block are carried out one after another. -/
inductive Crosses (p : Program) (text : Text) : List Instr → Place → Place → Prop where
  | nil {c} :
    Crosses p text [] c c
  | cons {instr rest c next c'} :
    p.Performs text instr c next →
    Crosses p text rest next c' →
    Crosses p text (instr :: rest) c c'

variable {p : Program} {text : Text} {instr : Instr} {block before after : List Instr} {c c' d d' : Place}
variable {n : Nat} {offset : Int32}

/-! ## Carrying out instructions -/

/-- A step carries the instruction out that stands there. -/
lemma Step.performs (step : p.Step text c c') :
    ∃ instr, p.instr? c.thread.pc = some instr ∧ p.Performs text instr c c' := by
  cases step with
  | takes at_pc takes => exact ⟨_, at_pc, .inl takes⟩
  | passes at_pc passes => exact ⟨_, at_pc, .inr passes⟩

/-- An instruction that does not jump leads to the next one. -/
lemma Performs.pc_eq (straight : instr.offset? = none) (performs : p.Performs text instr c c') :
    c'.thread.pc = c.thread.pc + 1 := by
  rcases performs with takes | passes
  · cases takes <;> rfl
  · cases passes <;> first | rfl | cases straight

/-- What an instruction without a jump does is the same wherever it stands. -/
lemma Performs.goto (straight : instr.offset? = none) (performs : p.Performs text instr c c') (n : Nat) :
    p.Performs text instr (c.goto n) (c'.goto (n + 1)) := by
  rcases performs with takes | passes
  · left
    cases takes with
    | anchored spells stands ends => exact .anchored spells stands ends
    | unanchored spells le stands ends empty => exact .unanchored spells le stands ends empty
  · right
    cases passes with
    | textStart empty => exact .textStart empty
    | textEnd => exact .textEnd
    | textEndUnanchored => exact .textEndUnanchored
    | unanchor => exact .unanchor
    | savePos => exact .savePos
    | _ => cases straight

/-- What an instruction that does not jump does depends on where it stands for the index behind it only. -/
lemma performs_goto_iff (straight : instr.offset? = none) :
    p.Performs text instr (c.goto n) d ↔ ∃ c', p.Performs text instr c c' ∧ d = c'.goto (n + 1) := by
  constructor
  · intro performs
    refine ⟨d.goto (c.thread.pc + 1), performs.goto straight c.thread.pc, ?_⟩
    have pc : d.thread.pc = n + 1 := performs.pc_eq straight
    rw [← pc]
    rfl
  · rintro ⟨c', performs, rfl⟩
    exact performs.goto straight n

/-- Instructions that jump take no bytes. -/
lemma performs_jump_iff (jumps : instr.offset? = some offset) :
    p.Performs text instr c c' ↔ text.Passes instr c c' := by
  refine or_iff_right (not_takes fun token atEnd consumes => ?_)
  cases consumes <;> cases jumps

/-! ## Crossing blocks -/

/-- A block is crossed by carrying out its first instruction and crossing the others. -/
lemma crosses_cons_iff : p.Crosses text (instr :: block) c c' ↔
    ∃ next, p.Performs text instr c next ∧ p.Crosses text block next c' := by
  constructor
  · intro crosses
    cases crosses with
    | cons performs rest => exact ⟨_, performs, rest⟩
  · rintro ⟨next, performs, rest⟩
    exact .cons performs rest

/-- A block of one instruction is crossed by carrying it out. -/
lemma crosses_singleton_iff : p.Crosses text [instr] c c' ↔ p.Performs text instr c c' := by
  rw [crosses_cons_iff]
  constructor
  · rintro ⟨next, performs, ⟨⟩⟩
    exact performs
  · exact fun performs => ⟨c', performs, .nil⟩

/-- A block may be crossed and then one more instruction carried out. -/
lemma Crosses.snoc (crosses : p.Crosses text block c d) (performs : p.Performs text instr d d') :
    p.Crosses text (block ++ [instr]) c d' := by
  induction crosses with
  | nil => exact .cons performs .nil
  | cons first _ ih => exact .cons first (ih performs)

/-- A block without jumps leads behind itself. -/
lemma Crosses.pc_eq (straight : ∀ instr ∈ block, instr.offset? = none) (crosses : p.Crosses text block c d) :
    d.thread.pc = c.thread.pc + block.length := by
  induction crosses with
  | nil => rfl
  | cons performs _ ih =>
    obtain ⟨here, others⟩ := List.forall_mem_cons.mp straight
    rw [ih others, performs.pc_eq here, List.length_cons]
    omega

/-- The first instruction of what stands at an index is the instruction there. -/
lemma instr?_of_prefix_drop (stands : instr :: after <+: p.code.toList.drop n) : p.instr? n = some instr := by
  obtain ⟨behind, eq⟩ := stands
  rw [instr?, ← Array.getElem?_toList, ← Nat.add_zero n, ← List.getElem?_drop, ← eq]
  rfl

/-- What follows the first part of a block stands behind it. -/
lemma prefix_drop_of_append (stands : before ++ after <+: p.code.toList.drop n) :
    after <+: p.code.toList.drop (n + before.length) := by
  obtain ⟨behind, eq⟩ := stands
  rw [← List.drop_drop, ← eq, List.append_assoc, List.drop_left]
  exact List.prefix_append _ _

/-- Behind a block that stands in a program and is crossed, the program goes on. -/
lemma Crosses.acceptsFrom (straight : ∀ instr ∈ block.dropLast, instr.offset? = none)
    (stands : block <+: p.code.toList.drop c.thread.pc) (crosses : p.Crosses text block c d)
    (accepts : p.AcceptsFrom text d) : p.AcceptsFrom text c := by
  induction crosses with
  | nil => exact accepts
  | @cons instr rest c next d performs crosses ih =>
    have at_pc : p.instr? c.thread.pc = some instr := instr?_of_prefix_drop stands
    have step : p.Step text c next := (step_iff at_pc).mpr performs
    cases rest with
    | nil =>
      cases crosses
      exact step.acceptsFrom accepts
    | cons second rest =>
      obtain ⟨here, others⟩ := List.forall_mem_cons.mp straight
      refine step.acceptsFrom (ih others ?_ accepts)
      rw [performs.pc_eq here]
      exact prefix_drop_of_append (List.singleton_append ▸ stands)

/-! ## Blocks that do what an instruction does -/

/-- A block does what `instr` does, and then control is behind the block. -/
structure Replaces (p : Program) (text : Text) (block : List Instr) (instr : Instr) : Prop where
  ne_nil : block ≠ []
  plain : instr.isPlain
  plain_block : ∀ other ∈ block, other.isPlain
  crosses_iff : ∀ c d, p.Crosses text block c d ↔
    ∃ c', p.Performs text instr c c' ∧ d = c'.goto (c.thread.pc + block.length)

/-- Whatever spells the same takes the same. -/
lemma Takes.of_spells {q : Program} {instr' : Instr}
    (spells : ∀ atEnd bytes, p.Spells instr atEnd bytes → q.Spells instr' atEnd bytes)
    (takes : p.Takes text instr c c') : q.Takes text instr' c c' := by
  cases takes with
  | anchored h stands ends => exact .anchored (spells _ _ h) stands ends
  | unanchored h le stands ends empty => exact .unanchored (spells _ _ h) le stands ends empty

end Program

end PatternVM
