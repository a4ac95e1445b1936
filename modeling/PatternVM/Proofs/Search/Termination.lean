import Mathlib.Order.RelClasses
import PatternVM.Proofs.Search.Evaluation
import PatternVM.Proofs.Search.Steps

/-!
# Termination

A search ends if the instructions can be ranked so that the rank falls along every edge of the control flow,
apart from two kinds. An edge out of an instruction that takes a byte may go anywhere, since the text behind
the cursor gets shorter. So may the jump of a `jumpIfAdvanced`: it is made only when a saved position that the
cursor has left is taken off, and no step at the same cursor can save another one. Hence each step makes the
measure of a place smaller: the text ahead, then the saved positions that the cursor has left, then the rank.
-/

namespace PatternVM

/-- Whether an instruction always takes a byte. -/
def Instr.advances : Instr → Bool
  | literal bytes _ => !bytes.isEmpty
  | byteClass _ _ | anyByte _ => true
  | _ => false

/-- The offset of an instruction that jumps whether the cursor has moved or not. -/
def Instr.plainOffset? : Instr → Option Int32
  | jump offset | branchFirst offset | jumpFirst offset => some offset
  | _ => none

namespace Program

/-- The edges of the control flow, apart from those out of an instruction that takes a byte and from the jumps
of `jumpIfAdvanced`. Only along these might a search go round for ever. -/
inductive Edge (p : Program) : Nat → Nat → Prop where
  | next {pc instr} :
    p.instr? pc = some instr →
    instr.fallsThrough →
    ¬ instr.advances →
    Edge p pc (pc + 1)
  | target {pc target : Nat} {instr offset} :
    p.instr? pc = some instr →
    instr.plainOffset? = some offset →
    (pc : Int) + offset.toInt = target →
    Edge p pc target

/-- The rank of instructions falls along every edge between two of them. -/
def Ranked (p : Program) (rank : Nat → Nat) : Prop :=
  ∀ pc target, p.Edge pc target → target < p.size → rank target < rank pc

/-- All jumps lead ahead, apart from those of `jumpIfAdvanced`. -/
def JumpsAhead (p : Program) : Prop :=
  ∀ instr ∈ p.code, instr.plainOffset?.all (1 ≤ ·.toInt)

/-- If all jumps lead ahead, the number of instructions that are left is a rank. -/
lemma JumpsAhead.ranked {p : Program} (ahead : p.JumpsAhead) : p.Ranked (p.size - ·) := by
  intro pc target edge lt
  have behind : pc < target := by
    cases edge with
    | next => exact Nat.lt_succ_self pc
    | target at_pc jumps leads =>
      have offset_pos := ahead _ (Array.mem_of_getElem? at_pc)
      rw [jumps, Option.all_some, decide_eq_true_eq] at offset_pos
      omega
  exact Nat.sub_lt_sub_left (Nat.lt_trans behind lt) behind

/-- Edges begin at instructions. -/
lemma Edge.lt_size {p : Program} {pc target : Nat} (edge : p.Edge pc target) : pc < p.size := by
  cases edge with
  | next at_pc => exact (Array.getElem?_eq_some_iff.mp at_pc).1
  | target at_pc => exact (Array.getElem?_eq_some_iff.mp at_pc).1

/-- The rank of an instruction, above that of all indices behind the program. -/
def height (p : Program) (rank : Nat → Nat) (pc : Nat) : Nat :=
  if pc < p.size then rank pc + 1 else 0

end Program

/-- The number of saved positions that the cursor has left. -/
def Place.leftBehind (c : Place) : Nat := c.saved.countP (· != c.thread.pos)

namespace Program

/-- What a step makes smaller: the text ahead, the saved positions that the cursor has left, the rank. -/
def measure (p : Program) (rank : Nat → Nat) (text : Text) (c : Place) : Nat × Nat × Nat :=
  (text.size - c.thread.pos, c.leftBehind, p.height rank c.thread.pc)

/-- A place is below another one if its measure is smaller. -/
def Below (p : Program) (rank : Nat → Nat) (text : Text) : Place → Place → Prop :=
  InvImage (Prod.Lex (· < ·) (Prod.Lex (· < ·) (· < ·))) (p.measure rank text)

/-- There is no endless way down. -/
lemma below_wf (p : Program) (rank : Nat → Nat) (text : Text) : WellFounded (p.Below rank text) :=
  InvImage.wf _ (Nat.lt_wfRel.wf.prod_lex (Nat.lt_wfRel.wf.prod_lex Nat.lt_wfRel.wf))

variable {p : Program} {rank : Nat → Nat} {text : Text} {c c' : Place}

/-- A place with a later cursor is below. -/
lemma below_of_pos (ahead : c.thread.pos < c'.thread.pos) (within : c'.Within text) :
    p.Below rank text c' c := by
  refine .left _ _ ?_
  rw [Place.Within] at within
  omega

/-- With the same cursor, a place that has left fewer saved positions behind is below. -/
lemma below_of_leftBehind (pos : c'.thread.pos = c.thread.pos) (fewer : c'.leftBehind < c.leftBehind) :
    p.Below rank text c' c := by
  rw [Below, InvImage, measure, measure, pos]
  exact .right _ (.left _ _ fewer)

/-- With the same cursor and saved positions, a place along an edge is below. -/
lemma below_of_edge (ranked : p.Ranked rank) (pos : c'.thread.pos = c.thread.pos)
    (left : c'.leftBehind = c.leftBehind) (edge : p.Edge c.thread.pc c'.thread.pc) :
    p.Below rank text c' c := by
  rw [Below, InvImage, measure, measure, pos, left]
  refine .right _ (.right _ ?_)
  rw [height, height, if_pos edge.lt_size]
  split
  · rename_i lt
    exact Nat.succ_lt_succ (ranked _ _ edge lt)
  · exact Nat.succ_pos _

/-- The next instruction is below one that takes no byte. -/
lemma below_of_next {instr : Instr} (ranked : p.Ranked rank) (at_pc : p.instr? c.thread.pc = some instr)
    (falls : instr.fallsThrough) (stays : ¬ instr.advances) (pc : c'.thread.pc = c.thread.pc + 1)
    (pos : c'.thread.pos = c.thread.pos) (left : c'.leftBehind = c.leftBehind) : p.Below rank text c' c := by
  refine below_of_edge ranked pos left ?_
  rw [pc]
  exact .next at_pc falls stays

/-- The target of a jump that does not depend on the saved positions is below. -/
lemma below_of_jumpsTo {instr : Instr} {offset : Int32} (ranked : p.Ranked rank)
    (at_pc : p.instr? c.thread.pc = some instr) (jumps : instr.plainOffset? = some offset)
    (leads : c.JumpsTo offset c') : p.Below rank text c' c := by
  obtain ⟨target, leads, rfl⟩ := leads
  exact below_of_edge ranked rfl rfl (.target at_pc jumps leads)

/-- An instruction that spells no bytes passes control on without taking any. -/
lemma Spells.next_of_nil {instr : Instr} {atEnd : Bool} (spells : p.Spells instr atEnd []) :
    instr.fallsThrough ∧ ¬ instr.advances := by
  cases spells with
  | literal => exact ⟨rfl, Bool.false_ne_true⟩

/-- The place behind bytes that are taken is below. -/
lemma below_of_spells {instr : Instr} {atEnd : Bool} {bytes : List UInt8} {q : Nat} (ranked : p.Ranked rank)
    (at_pc : p.instr? c.thread.pc = some instr) (spells : p.Spells instr atEnd bytes) (le : c.thread.pos ≤ q)
    (within : q + bytes.length ≤ text.size) :
    p.Below rank text ⟨⟨c.thread.pc + 1, q + bytes.length, false⟩, c.saved⟩ c := by
  rcases Nat.lt_or_ge c.thread.pos (q + bytes.length) with ahead | ge
  · exact below_of_pos ahead within
  · -- nothing has been taken, so only the rank is left to fall
    obtain rfl : bytes = [] := List.eq_nil_of_length_eq_zero (by omega)
    have pos : q + ([] : List UInt8).length = c.thread.pos := Nat.le_antisymm ge le
    obtain ⟨falls, stays⟩ := spells.next_of_nil
    rw [pos]
    exact below_of_edge ranked rfl rfl (.next at_pc falls stays)

/-- A place where a saved position that the cursor has left has been taken off is below. -/
lemma below_of_moved {t t' : Thread} {q : Nat} {saved : List Nat} (moved : q ≠ t.pos) (pos : t'.pos = t.pos) :
    p.Below rank text ⟨t', saved⟩ ⟨t, q :: saved⟩ := by
  refine below_of_leftBehind pos ?_
  have counts : (q != t.pos) = true := bne_iff_ne.mpr moved
  rw [Place.leftBehind, Place.leftBehind, pos, List.countP_cons, if_pos counts]
  exact Nat.lt_succ_self _

/-- Each step leads to a place below. -/
theorem Step.below (ranked : p.Ranked rank) (step : p.Step text c c') (within : c.Within text) :
    p.Below rank text c' c := by
  have within' := step.within within
  cases step with
  | takes at_pc takes =>
    cases takes with
    | anchored spells => exact below_of_spells ranked at_pc spells (Nat.le_refl _) within'
    | unanchored spells le => exact below_of_spells ranked at_pc spells le within'
  | passes at_pc passes =>
    cases passes with
    | textStart => exact below_of_next ranked at_pc rfl Bool.false_ne_true rfl rfl rfl
    | textEnd => exact below_of_next ranked at_pc rfl Bool.false_ne_true rfl rfl rfl
    | @textEndUnanchored pc pos saved =>
      rcases Nat.eq_or_lt_of_le within with ends | before
      · obtain rfl : pos = text.size := ends
        exact below_of_next ranked at_pc rfl Bool.false_ne_true rfl rfl rfl
      · exact below_of_pos before within'
    | unanchor => exact below_of_next ranked at_pc rfl Bool.false_ne_true rfl rfl rfl
    | savePos =>
      -- the cursor has not left the position just saved
      refine below_of_next ranked at_pc rfl Bool.false_ne_true rfl rfl ?_
      simp [Place.leftBehind]
    | jump leads => exact below_of_jumpsTo ranked at_pc rfl leads
    | branchNext => exact below_of_next ranked at_pc rfl Bool.false_ne_true rfl rfl rfl
    | branchTarget leads => exact below_of_jumpsTo ranked at_pc rfl leads
    | jumpNext => exact below_of_next ranked at_pc rfl Bool.false_ne_true rfl rfl rfl
    | jumpTarget leads => exact below_of_jumpsTo ranked at_pc rfl leads
    | still =>
      -- nor the one that is taken off here
      refine below_of_next ranked at_pc rfl Bool.false_ne_true rfl rfl ?_
      simp [Place.leftBehind, Place.goto]
    | movedNext moved => exact below_of_moved moved rfl
    | movedTarget moved leads =>
      obtain ⟨target, _, rfl⟩ := leads
      exact below_of_moved moved rfl

/-- Places that all yield a verdict have a first one. -/
lemma exists_yieldsFirst {places : List Place} (each : ∀ c ∈ places, ∃ verdict, p.Yields text c verdict) :
    ∃ verdict, p.YieldsFirst text places verdict := by
  induction places with
  | nil => exact ⟨_, yieldsFirst_nil.mpr rfl⟩
  | cons c rest ih =>
    obtain ⟨own, yields⟩ := each c List.mem_cons_self
    by_cases fails : own = .ok false
    · obtain ⟨verdict, others⟩ := ih fun c' mem => each c' (List.mem_cons_of_mem c mem)
      exact ⟨verdict, yieldsFirst_cons.mpr (.inl ⟨fails ▸ yields, others⟩)⟩
    · exact ⟨own, yieldsFirst_cons.mpr (.inr ⟨yields, fails⟩)⟩

/-- Every place of a program with a rank yields a verdict. -/
lemma Ranked.yields (ranked : p.Ranked rank) (within : c.Within text) :
    ∃ verdict, p.Yields text c verdict := by
  induction c using (p.below_wf rank text).induction with
  | h c ih =>
    cases alternatives : p.alternatives text c with
    | settled own => exact ⟨own, (yields_of_settled alternatives).mpr rfl⟩
    | opened places =>
      -- every alternative is a step away, so it is below and yields a verdict by induction
      obtain ⟨verdict, first⟩ : ∃ verdict, p.YieldsFirst text places verdict := by
        refine exists_yieldsFirst fun c' mem => ?_
        have step := (step_iff_mem within alternatives).mpr mem
        exact ih c' (step.below ranked within) (step.within within)
      exact ⟨verdict, (yields_of_opened alternatives).mpr first⟩

end Program

namespace Matcher

/-- If a program yields a verdict, every run of it ends. -/
lemma exists_run_of_yields (m : Matcher) {p : Program} {text : Text} {verdict : Verdict}
    (yields : p.Yields text .start verdict) : ∃ budget, (m.run budget p text).isSome := by
  obtain ⟨budget, explored⟩ := Program.explores_iff_yields.mpr yields
  refine ⟨budget, ?_⟩
  rw [← Option.isSome_map (f := Outcome.verdict)]
  -- a limit that refuses a choice point ends the run as well
  obtain ends | ⟨_, refused⟩ := m.run_verdict budget p text
  · rw [ends, explored]
    rfl
  · rw [refused]
    rfl

/-- A match ends if its run does. -/
lemma test_isSome_of_run {m : Matcher} {budget : Nat} {p : Program} {text : Text}
    (h : (m.run budget p text).isSome) : (m.test budget p text).isSome := by
  rw [test]
  split
  · rfl
  · exact h

/-- All runs and matches of a program with a rank come to an end. There is a rank if only a `jumpIfAdvanced`
leads back. -/
theorem halts_of_ranked (p : Program) :
    (p.JumpsAhead → ∃ rank, p.Ranked rank) ∧
      ((∃ rank, p.Ranked rank) → ∀ (m : Matcher) (text : Text),
        ∃ budget, (m.run budget p text).isSome ∧ (m.test budget p text).isSome) := by
  constructor
  · intro ahead
    exact ⟨_, ahead.ranked⟩
  · rintro ⟨rank, ranked⟩ m text
    obtain ⟨verdict, yields⟩ := ranked.yields (c := .start) (Nat.zero_le text.size)
    obtain ⟨budget, ends⟩ := m.exists_run_of_yields yields
    exact ⟨budget, ends, test_isSome_of_run ends⟩

/-- A repetition within a repetition, neither of which has to take a byte in any round. -/
theorem halts_of_ranked_nested :
    let p : Program :=
      ⟨#[.textStart false, .branchFirst 8, .savePos, .branchFirst 5, .savePos, .branchFirst 2,
          .literal [98] false, .jumpIfAdvanced (-3), .jumpIfAdvanced (-6), .textEnd, .accept], #[]⟩
    p.JumpsAhead ∧ (∃ rank, p.Ranked rank) ∧
      ∀ (m : Matcher) (text : Text),
        ∃ budget, (m.run budget p text).isSome ∧ (m.test budget p text).isSome := by
  intro p
  have ahead : p.JumpsAhead := by
    unfold Program.JumpsAhead
    decide
  obtain ⟨ranks, halts⟩ := halts_of_ranked p
  exact ⟨ahead, ranks ahead, halts (ranks ahead)⟩

end Matcher

end PatternVM
