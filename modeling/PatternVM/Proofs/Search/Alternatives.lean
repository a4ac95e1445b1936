import PatternVM.Proofs.Search.Agenda
import PatternVM.Proofs.Text.Occurrence

/-!
# Alternatives

The ways to go on from a place, as a reader of the instructions would list them: all at once and most
preferred first. A token that may stand anywhere has one alternative for each position where it stands.

A search never lists those positions. It takes the first one and puts off a *retry*, the same place one
position further on. `Program.visit_cases` says that this is the only difference: a visit either opens just
the alternatives, or the first of them and a retry whose alternatives are the others.
-/

namespace PatternVM

/-- Whether a token stands at a position, and at the end of the text if it has to. -/
def Token.standsAt (token : Token) (text : Text) (atEnd : Bool) (q : Nat) : Bool :=
  token.occursAt text q && (!atEnd || q + token.width == text.size)

/-- The positions where a thread may take a token, in ascending order. An anchored thread may take it at
the cursor only, any other one from the cursor on. The empty literal is taken from there on at the end of
the text only. -/
def Token.starts (token : Token) (text : Text) (atEnd : Bool) : Thread → List Nat
  | ⟨_, pos, false⟩ => [pos].filter (token.standsAt text atEnd)
  | ⟨_, pos, true⟩ =>
    if atEnd || token.width != 0 then
      (List.range' pos (text.size + 1 - pos)).filter (token.standsAt text atEnd)
    else
      []

namespace Place

/-- The same place at another instruction. -/
def goto (c : Place) (pc : Nat) : Place := { c with thread := { c.thread with pc } }

/-- The place behind a token that has been taken at `q`. -/
def past (c : Place) (token : Token) (q : Nat) : Place :=
  { c with thread := ⟨c.thread.pc + 1, q + token.width, false⟩ }

/-- The same place, which looks for its token from `q` on. -/
def retry (c : Place) (q : Nat) : Place := { c with thread := ⟨c.thread.pc, q, true⟩ }

/-- The places behind a token, for each position where it may be taken. -/
def pastToken (c : Place) (text : Text) (token : Token) (atEnd : Bool) : Visit :=
  .opened ((token.starts text atEnd c.thread).map (c.past token))

end Place

namespace Program

/-- The verdict on a program with a defect at a place. -/
def refuse (c : Place) (defect : Defect) : Visit := .settled (.error (.corrupt c.thread.pc defect))

/-- The target of a jump, and behind it the next instruction. If that is to accept, the text matches. -/
def targetFirst (p : Program) (c : Place) (offset : Int32) : Visit :=
  match p.target c.thread.pc offset with
  | .error defect => refuse c defect
  | .ok target =>
    match p.instr? (c.thread.pc + 1) with
    | none => refuse c .alternativePastEnd
    | some next =>
      if next.isAccept then .settled (.ok true) else .opened [c.goto target, c.goto (c.thread.pc + 1)]

/-- The next instruction, and behind it the target of a jump. If that is to accept, the text matches. -/
def nextFirst (p : Program) (c : Place) (offset : Int32) : Visit :=
  match p.target c.thread.pc offset with
  | .error defect => refuse c defect
  | .ok target =>
    if (p.instr? target).any Instr.isAccept then .settled (.ok true)
    else .opened [c.goto (c.thread.pc + 1), c.goto target]

/-- The ways to go on from a place, most preferred first, or the verdict that it gives at once. -/
def alternatives (p : Program) (text : Text) (c : Place) : Visit :=
  let next := c.goto (c.thread.pc + 1)
  match p.instr? c.thread.pc with
  | none => refuse c .pastEnd
  | some (.literal bytes atEnd) => c.pastToken text (.literal bytes) atEnd
  | some (.byteClass id atEnd) =>
    match p.class? id with
    | some set => c.pastToken text (.oneOf set) atEnd
    | none => refuse c (.classOutOfRange id)
  | some (.anyByte atEnd) => c.pastToken text .anyByte atEnd
  | some (.textStart atEnd) =>
    .opened <|
      if c.thread.pos = 0 ∧ (atEnd → text.size = 0) then [{ next with thread.unanchored := false }] else []
  | some .textEnd =>
    if c.thread.unanchored then
      .opened [{ c with thread := ⟨c.thread.pc + 1, text.size, false⟩ }]
    else
      .opened (if text.size ≤ c.thread.pos then [next] else [])
  | some .unanchor => .opened [{ next with thread.unanchored := true }]
  | some (.jump offset) =>
    match p.target c.thread.pc offset with
    | .ok target => .opened [c.goto target]
    | .error defect => refuse c defect
  | some .savePos => .opened [{ next with saved := c.thread.pos :: c.saved }]
  | some (.branchFirst offset) => p.nextFirst c offset
  | some (.jumpIfAdvanced offset) =>
    match c.saved with
    | [] => refuse c .nothingSaved
    | q :: saved =>
      if q = c.thread.pos then .opened [{ next with saved }]
      else p.targetFirst { c with saved } offset
  | some (.jumpFirst offset) => p.targetFirst c offset
  | some .accept => .settled (.ok true)

end Program

/-! ## Branches -/

namespace Program

variable (p : Program) (c : Place) (offset : Int32)

/-- A jump with the next instruction as the alternative is refused, or ahead of an accepting one, or opens
both ways. -/
lemma targetFirst_cases :
    (∃ fault, p.targetFirst c offset = .settled (.error fault)) ∨
      (p.targetFirst c offset = .settled (.ok true) ∧ p.instr? (c.thread.pc + 1) = some .accept) ∨
        ∃ target, p.target c.thread.pc offset = .ok target ∧
          p.targetFirst c offset = .opened [c.goto target, c.goto (c.thread.pc + 1)] := by
  rw [targetFirst]
  cases p.target c.thread.pc offset with
  | error defect => exact .inl ⟨_, rfl⟩
  | ok target =>
    cases p.instr? (c.thread.pc + 1) with
    | none => exact .inl ⟨_, rfl⟩
    | some next =>
      cases next with
      | accept => exact .inr (.inl ⟨rfl, rfl⟩)
      | _ => exact .inr (.inr ⟨target, rfl, rfl⟩)

/-- The next instruction with a jump as the alternative is refused, or the jump leads to an accepting one, or
both ways are opened. -/
lemma nextFirst_cases :
    (∃ fault, p.nextFirst c offset = .settled (.error fault)) ∨
      ∃ target, p.target c.thread.pc offset = .ok target ∧
        (p.nextFirst c offset = .settled (.ok true) ∧ p.instr? target = some .accept ∨
          p.nextFirst c offset = .opened [c.goto (c.thread.pc + 1), c.goto target]) := by
  rw [nextFirst]
  cases p.target c.thread.pc offset with
  | error defect => exact .inl ⟨_, rfl⟩
  | ok target =>
    refine .inr ⟨target, rfl, ?_⟩
    simp only
    cases p.instr? target with
    | none => exact .inr rfl
    | some next =>
      cases next with
      | accept => exact .inl ⟨rfl, rfl⟩
      | _ => exact .inr rfl

end Program

/-- An accepting place gives its verdict at once. -/
lemma Program.alternatives_of_accept {p : Program} {text : Text} {c : Place}
    (accepts : p.instr? c.thread.pc = some .accept) : p.alternatives text c = .settled (.ok true) := by
  rw [alternatives, accepts]

/-! ## Where tokens may be taken -/

/-- Of a range of numbers the first one with a property is kept, and then what is kept behind it. -/
lemma filter_range'_of_first {P : Nat → Bool} {start n q : Nat} (h : FirstFrom (P ·) start q)
    (lt : q < start + n) :
    (List.range' start n).filter P = q :: (List.range' (q + 1) (start + n - (q + 1))).filter P := by
  induction n generalizing start with
  | zero => exact absurd h.le (by omega)
  | succ n ih =>
    obtain ⟨le, holds, least⟩ := h
    rw [List.range'_succ]
    rcases Nat.eq_or_lt_of_le le with rfl | behind
    · rw [List.filter_cons_of_pos holds, show start + (n + 1) - (start + 1) = n by omega]
    · rw [List.filter_cons_of_neg (least start (Nat.le_refl start) behind)]
      rw [ih ⟨behind, holds, fun j lej => least j (Nat.le_of_lt lej)⟩ (by omega)]
      rw [show start + 1 + n = start + (n + 1) by omega]

/-- Of a range of numbers without a property nothing is kept. -/
lemma filter_range'_of_none {P : Nat → Bool} {start n : Nat} (h : ∀ q, start ≤ q → ¬ P q) :
    (List.range' start n).filter P = [] :=
  List.filter_eq_nil_iff.mpr fun q mem => h q (List.mem_range'_1.mp mem).1

namespace Token

variable {token : Token} {text : Text} {pc pos q : Nat} {atEnd : Bool}

/-- A token stands at a position if it occurs there, and ends with the text if it has to. -/
lemma standsAt_iff : token.standsAt text atEnd q ↔
    token.occursAt text q ∧ (atEnd → q + token.width = text.size) := by
  cases atEnd with
  | false => simp [standsAt]
  | true => simp [standsAt]

/-- A token that may be followed by more text stands wherever it occurs. -/
lemma standsAt_false : token.standsAt text false q = token.occursAt text q := by simp [standsAt]

/-- A token that has to finish the text stands where it occurs and ends with the text. -/
lemma standsAt_true : token.standsAt text true q ↔
    token.occursAt text q ∧ q + token.width = text.size := by simp [standsAt]

/-- An anchored thread may take a token at the cursor only. -/
lemma mem_starts_anchored :
    q ∈ token.starts text atEnd ⟨pc, pos, false⟩ ↔ q = pos ∧ token.standsAt text atEnd q := by
  rw [starts, List.mem_filter, List.mem_singleton]

/-- A thread that is not anchored may take a token from the cursor on. -/
lemma mem_starts_unanchored : q ∈ token.starts text atEnd ⟨pc, pos, true⟩ ↔
    pos ≤ q ∧ token.standsAt text atEnd q ∧ (token.width = 0 → atEnd) := by
  rw [starts]
  split
  · rename_i nonempty
    have empty : token.width = 0 → atEnd := by
      intro zero
      simpa [zero] using nonempty
    rw [List.mem_filter, List.mem_range'_1]
    constructor
    · rintro ⟨⟨le, _⟩, stands⟩
      exact ⟨le, stands, empty⟩
    · rintro ⟨le, stands, _⟩
      obtain ⟨occurs, ends⟩ := standsAt_iff.mp stands
      refine ⟨⟨le, ?_⟩, stands⟩
      rcases Nat.eq_zero_or_pos token.width with zero | width_pos
      · have := ends (empty zero)
        omega
      · have := add_width_le occurs width_pos
        omega
  · rename_i nothing
    constructor
    · intro mem
      cases mem
    · rintro ⟨_, _, empty⟩
      refine absurd ?_ nothing
      by_cases zero : token.width = 0
      · simp [empty zero]
      · simp [zero]

/-- What a search finds is the first position where the token may be taken, and the others are those of a
retry one position further on. -/
lemma starts_of_find?_eq_some (h : token.find? text pos = some q) :
    token.starts text false ⟨pc, pos, true⟩ = q :: token.starts text false ⟨pc, q + 1, true⟩ := by
  obtain ⟨width_pos, first⟩ := find?_eq_some h
  have room := add_width_le first.holds width_pos
  have le := first.le
  have nonempty : (false || token.width != 0) = true := by simpa using Nat.ne_of_gt width_pos
  have stands : token.standsAt text false = (token.occursAt text ·) := funext fun _ => standsAt_false
  rw [starts, starts, if_pos nonempty, if_pos nonempty, stands]
  rw [filter_range'_of_first first (by omega)]
  rw [show pos + (text.size + 1 - pos) - (q + 1) = text.size + 1 - (q + 1) by omega]

/-- If a search from the cursor on finds no token, there is no place to take it. -/
lemma starts_of_find?_eq_none (h : token.find? text pos = none) :
    token.starts text false ⟨pc, pos, true⟩ = [] := by
  rw [starts]
  split
  · rename_i nonempty
    have width_pos : 0 < token.width := Nat.pos_of_ne_zero (by simpa using nonempty)
    refine filter_range'_of_none fun q le => ?_
    rw [standsAt_false]
    exact find?_eq_none h width_pos le
  · rfl

/-- A token that has to finish at the end of the text may be taken at one position at most. -/
lemma starts_true :
    token.starts text true ⟨pc, pos, true⟩ =
      if pos + token.width ≤ text.size ∧ token.occursAt text (text.size - token.width) then
        [text.size - token.width]
      else
        [] := by
  rw [starts, Bool.true_or, if_pos rfl]
  by_cases h : pos + token.width ≤ text.size ∧ token.occursAt text (text.size - token.width)
  · obtain ⟨room, occurs⟩ := h
    have first : FirstFrom (token.standsAt text true ·) pos (text.size - token.width) := by
      refine ⟨by omega, standsAt_true.mpr ⟨occurs, by omega⟩, fun j _ lt stands => ?_⟩
      have := (standsAt_true.mp stands).2
      omega
    rw [if_pos ⟨room, occurs⟩, filter_range'_of_first first (by omega)]
    -- only one position finishes at the end
    refine congrArg (List.cons _) (filter_range'_of_none fun j behind stands => ?_)
    have := (standsAt_true.mp stands).2
    omega
  · rw [if_neg h]
    refine filter_range'_of_none fun j le stands => h ?_
    obtain ⟨occurs, ends⟩ := standsAt_true.mp stands
    rw [← ends, Nat.add_sub_cancel]
    exact ⟨by omega, occurs⟩

end Token

/-! ## Visits and alternatives -/

/-- A token is taken at the only position where that is possible, or else at the first one, with a retry at
the others put off. -/
lemma Token.visit_cases (token : Token) (text : Text) (atEnd : Bool) (c : Place) :
    (token.move text atEnd c.thread).visit c = c.pastToken text token atEnd ∨
      ∃ q, (token.move text atEnd c.thread).visit c = .opened [c.past token q, c.retry (q + 1)] ∧
        token.starts text atEnd c.thread = q :: token.starts text atEnd (c.retry (q + 1)).thread := by
  obtain ⟨⟨pc, pos, unanchored⟩, saved⟩ := c
  cases unanchored with
  | false =>
    left
    simp only [move, Place.pastToken, starts]
    by_cases h : token.standsAt text atEnd pos
    · rw [List.filter_cons_of_pos h]
      cases atEnd with
      | false =>
        rw [standsAt_false] at h
        simp only [if_pos h]
        rfl
      | true =>
        obtain ⟨occurs, ends⟩ := standsAt_true.mp h
        simp only [ends, occurs, and_self, if_true]
        simp [Move.visit, Place.past, MarkUse.on, ends]
    · rw [List.filter_cons_of_neg h]
      cases atEnd with
      | false =>
        rw [standsAt_false] at h
        simp only [if_neg h]
        rfl
      | true =>
        have fails : ¬ (pos + token.width = text.size ∧ token.occursAt text pos) :=
          fun ⟨ends, occurs⟩ => h (standsAt_true.mpr ⟨occurs, ends⟩)
        simp only [if_neg fails]
        rfl
  | true =>
    cases atEnd with
    | false =>
      cases found : token.find? text pos with
      | none =>
        left
        simp only [move, Place.pastToken, found, starts_of_find?_eq_none found]
        rfl
      | some q =>
        right
        refine ⟨q, ?_, starts_of_find?_eq_some found⟩
        simp only [move, found]
        rfl
    | true =>
      left
      simp only [move, Place.pastToken, starts_true]
      by_cases h : pos + token.width ≤ text.size ∧ token.occursAt text (text.size - token.width)
      · have ends : text.size - token.width + token.width = text.size := by omega
        rw [if_pos h, if_pos h]
        simp [Move.visit, Place.past, MarkUse.on, ends]
      · rw [if_neg h, if_neg h]
        rfl

namespace Program

variable {p : Program} {text : Text}

/-- A jump with the next instruction as the alternative prefers its target. -/
lemma visit_moveToTarget (c : Place) (offset : Int32) (use : MarkUse) :
    (p.moveToTarget c.thread offset use).visit c =
      p.targetFirst { c with saved := use.on c.saved } offset := by
  rw [moveToTarget, targetFirst]
  cases p.target c.thread.pc offset with
  | error defect => rfl
  | ok target =>
    cases p.instr? (c.thread.pc + 1) with
    | none => rfl
    | some next => cases next <;> rfl

/-- A branch to the next instruction prefers that to the target of its jump. -/
lemma visit_moveToNext (c : Place) (offset : Int32) :
    (p.moveToNext c.thread offset).visit c = p.nextFirst c offset := by
  rw [moveToNext, nextFirst]
  cases p.target c.thread.pc offset with
  | error defect => rfl
  | ok target =>
    simp only
    cases p.instr? target with
    | none => rfl
    | some next => cases next <;> rfl

/-- An instruction that consumes looks for the given token. -/
inductive Consumes (p : Program) : Instr → Token → Bool → Prop where
  | literal {bytes atEnd} :
    Consumes p (.literal bytes atEnd) (.literal bytes) atEnd
  | byteClass {id set atEnd} :
    p.class? id = some set →
    Consumes p (.byteClass id atEnd) (.oneOf set) atEnd
  | anyByte {atEnd} :
    Consumes p (.anyByte atEnd) .anyByte atEnd

/-- The ways to go on from an instruction that consumes lead behind its token. -/
lemma alternatives_of_consumes {c : Place} {instr : Instr} {token : Token} {atEnd : Bool}
    (at_pc : p.instr? c.thread.pc = some instr) (consumes : p.Consumes instr token atEnd) :
    p.alternatives text c = c.pastToken text token atEnd := by
  cases consumes with
  | literal => simp only [alternatives, at_pc]
  | byteClass found => simp only [alternatives, at_pc, found]
  | anyByte => simp only [alternatives, at_pc]

/-- A visit to an instruction that consumes makes the move of its token. -/
lemma visit_of_consumes {c : Place} {instr : Instr} {token : Token} {atEnd : Bool}
    (at_pc : p.instr? c.thread.pc = some instr) (consumes : p.Consumes instr token atEnd) :
    p.visit text c = (token.move text atEnd c.thread).visit c := by
  cases consumes with
  | literal => simp only [visit, visitBy, at_pc, move]
  | byteClass found => simp only [visit, visitBy, at_pc, move, found]
  | anyByte => simp only [visit, visitBy, at_pc, move]

/-- At any other instruction a visit opens all the alternatives at once. -/
lemma visit_of_not_consumes {c : Place}
    (none : ∀ instr token atEnd, p.instr? c.thread.pc = some instr → ¬ p.Consumes instr token atEnd) :
    p.visit text c = p.alternatives text c := by
  cases e : p.instr? c.thread.pc with
  | none => simp only [visit, visitBy, alternatives, e, refuse]
  | some instr =>
    simp only [visit, visitBy, alternatives, e]
    cases instr with
    | literal bytes atEnd => exact absurd .literal (none _ _ _ e)
    | byteClass id atEnd =>
      cases found : p.class? id with
      | none => simp only [move, found, refuse, Move.visit]
      | some set => exact absurd (.byteClass found) (none _ _ _ e)
    | anyByte atEnd => exact absurd .anyByte (none _ _ _ e)
    | textStart atEnd =>
      simp only [move]
      split <;> rfl
    | textEnd =>
      simp only [move]
      split
      · rfl
      · split <;> rfl
    | unanchor => rfl
    | jump offset =>
      simp only [move]
      cases p.target c.thread.pc offset <;> rfl
    | savePos => rfl
    | branchFirst offset => exact visit_moveToNext c offset
    | jumpIfAdvanced offset =>
      cases saved : c.saved with
      | nil => rfl
      | cons q older =>
        simp only [move, List.head?_cons, Option.map_some, Motion.since]
        by_cases still : q = c.thread.pos
        · rw [if_pos still, if_pos still]
          simp [Move.visit, MarkUse.on, saved, Place.goto]
        · rw [if_neg still, if_neg still]
          simp only
          rw [visit_moveToTarget, MarkUse.on, saved, List.tail_cons]
    | jumpFirst offset => exact visit_moveToTarget c offset .keep
    | accept => rfl

/-- A visit opens the alternatives, or the first of them and a retry at the others. -/
theorem visit_cases (p : Program) (text : Text) (c : Place) :
    p.visit text c = p.alternatives text c ∨
      ∃ first rest retry, p.visit text c = .opened [first, retry] ∧
        p.alternatives text c = .opened (first :: rest) ∧ p.alternatives text retry = .opened rest := by
  by_cases h : ∃ instr token atEnd, p.instr? c.thread.pc = some instr ∧ p.Consumes instr token atEnd
  · -- a retry stands at the same instruction, so the same token is looked for
    obtain ⟨instr, token, atEnd, at_pc, consumes⟩ := h
    rw [alternatives_of_consumes at_pc consumes, visit_of_consumes at_pc consumes]
    obtain only | ⟨q, visit, starts⟩ := token.visit_cases text atEnd c
    · exact .inl only
    · right
      refine ⟨_, _, c.retry (q + 1), visit, ?_, alternatives_of_consumes at_pc consumes⟩
      rw [Place.pastToken, starts]
      rfl
  · left
    refine visit_of_not_consumes fun instr token atEnd at_pc consumes => ?_
    exact h ⟨instr, token, atEnd, at_pc, consumes⟩

end Program

end PatternVM
