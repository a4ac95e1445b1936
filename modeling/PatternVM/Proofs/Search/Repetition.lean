import Mathlib.Data.List.TakeWhile
import PatternVM.Proofs.Search.Peak
import PatternVM.Proofs.Search.Termination

/-!
# Repetitions

Three programs that repeat a byte class between the start and the end of a text: once or more, as often as
possible, and the same within a repetition of its own. Without a limit they match just the texts that they
stand for (`Matcher.test_repetitions`).

For the last two, a place is read by what it yields. Their rounds may take nothing, and `Program.Loops` says
what such a loop looks like anywhere in a program: if the places behind it give a right answer, from the cursor
to the end of the text, then so does its top (`Program.Loops.yields`). The inner one of two loops may be left to
the top of the outer one, but only with less text ahead. For the first program the agenda is worked off place by
place, which counts the choice points as well.
-/

namespace PatternVM

namespace Program

variable {p : Program} {text : Text} {c c' a b : Place} {verdict : Verdict} {set : ByteSet} {instr next : Instr}
  {pc pos q target id : Nat} {saved : List Nat} {offset : Int32} {unanchored : Bool}

/-! ## One instruction at a time -/

/-- At the start of the text a thread becomes anchored. -/
lemma visit_textStart (at_pc : p.instr? 0 = some (.textStart false)) :
    p.visit text .start = .opened [⟨⟨1, 0, false⟩, []⟩] := by
  simp only [visit, visitBy, Place.start, Thread.start, at_pc]
  rfl

/-- An accepting instruction gives the answer yes. -/
lemma visit_accept (at_pc : p.instr? pc = some .accept) :
    p.visit text ⟨⟨pc, pos, unanchored⟩, saved⟩ = .settled (.ok true) := by
  simp only [visit, visitBy, at_pc]
  rfl

/-- The cursor is put on top of the saved positions. -/
lemma visit_savePos (at_pc : p.instr? pc = some .savePos) :
    p.visit text ⟨⟨pc, pos, unanchored⟩, saved⟩ = .opened [⟨⟨pc + 1, pos, unanchored⟩, pos :: saved⟩] := by
  simp only [visit, visitBy, at_pc]
  rfl

/-- At the end of the text an anchored thread goes on. -/
lemma visit_textEnd_of_ends (at_pc : p.instr? pc = some .textEnd) (ends : text.size ≤ pos) :
    p.visit text ⟨⟨pc, pos, false⟩, saved⟩ = .opened [⟨⟨pc + 1, pos, false⟩, saved⟩] := by
  simp only [visit, visitBy, at_pc, move, Bool.false_eq_true, if_false, if_pos ends]
  rfl

/-- In front of the end of the text an anchored thread fails. -/
lemma visit_textEnd_of_before (at_pc : p.instr? pc = some .textEnd) (before : pos < text.size) :
    p.visit text ⟨⟨pc, pos, false⟩, saved⟩ = .opened [] := by
  simp only [visit, visitBy, at_pc, move, Bool.false_eq_true, if_false, if_neg (Nat.not_le.mpr before)]
  rfl

/-- An anchored thread takes the byte at the cursor if it is in the class. -/
lemma visit_byteClass_of_holdsAt (at_pc : p.instr? pc = some (.byteClass id false)) (found : p.class? id = some set)
    (holds : text.holdsAt set.contains pos) :
    p.visit text ⟨⟨pc, pos, false⟩, saved⟩ = .opened [⟨⟨pc + 1, pos + 1, false⟩, saved⟩] := by
  have occurs : (Token.oneOf set).occursAt text pos := holds
  rw [visit_of_consumes at_pc (.byteClass found)]
  simp only [Token.move, if_pos occurs]
  rfl

/-- An anchored thread fails if the byte at the cursor is not in the class. -/
lemma visit_byteClass_of_not_holdsAt (at_pc : p.instr? pc = some (.byteClass id false))
    (found : p.class? id = some set) (fails : ¬ text.holdsAt set.contains pos) :
    p.visit text ⟨⟨pc, pos, false⟩, saved⟩ = .opened [] := by
  have missing : ¬ (Token.oneOf set).occursAt text pos := fails
  rw [visit_of_consumes at_pc (.byteClass found)]
  simp only [Token.move, if_neg missing]
  rfl

/-- A branch opens the next instruction and then its target, if that does not accept. -/
lemma visit_branchFirst (at_pc : p.instr? pc = some (.branchFirst offset)) (resolved : p.target pc offset = .ok target)
    (at_target : p.instr? target = some next) (goes_on : ¬ next.isAccept) :
    p.visit text ⟨⟨pc, pos, unanchored⟩, saved⟩ =
      .opened [⟨⟨pc + 1, pos, unanchored⟩, saved⟩, ⟨⟨target, pos, unanchored⟩, saved⟩] := by
  simp only [visit, visitBy, at_pc, move]
  rw [visit_moveToNext ⟨⟨pc, pos, unanchored⟩, saved⟩]
  simp only [nextFirst, resolved, at_target]
  rw [Option.any_some, if_neg goes_on]
  rfl

/-- If the cursor is where it was saved, a `jumpIfAdvanced` goes on to the next instruction. -/
lemma visit_still (at_pc : p.instr? pc = some (.jumpIfAdvanced offset)) :
    p.visit text ⟨⟨pc, pos, unanchored⟩, pos :: saved⟩ = .opened [⟨⟨pc + 1, pos, unanchored⟩, saved⟩] := by
  simp only [visit, visitBy, at_pc, move, List.head?_cons, Option.map_some, Motion.since, if_pos]
  rfl

/-- If the cursor has left the saved position, a `jumpIfAdvanced` opens its target and then the next instruction. -/
lemma visit_moved (at_pc : p.instr? pc = some (.jumpIfAdvanced offset)) (resolved : p.target pc offset = .ok target)
    (at_next : p.instr? (pc + 1) = some next) (goes_on : ¬ next.isAccept) (moved : q ≠ pos) :
    p.visit text ⟨⟨pc, pos, unanchored⟩, q :: saved⟩ =
      .opened [⟨⟨target, pos, unanchored⟩, saved⟩, ⟨⟨pc + 1, pos, unanchored⟩, saved⟩] := by
  simp only [visit, visitBy, at_pc, move, List.head?_cons, Option.map_some, Motion.since, if_neg moved]
  rw [visit_moveToTarget ⟨⟨pc, pos, unanchored⟩, q :: saved⟩]
  simp only [targetFirst, resolved, at_next]
  rw [if_neg goes_on]
  rfl

/-! ## What places yield -/

/-- A place with one way to go on yields the verdict of that way. -/
lemma Yields.of_one (visit : p.visit text c = .opened [c']) (yields : p.Yields text c' verdict) :
    p.Yields text c verdict := by
  rw [yields_of_visit_opened visit, yieldsFirst_cons, yieldsFirst_nil]
  by_cases fails : verdict = .ok false
  · exact .inl ⟨fails ▸ yields, fails⟩
  · exact .inr ⟨yields, fails⟩

/-- A place without any way to go on fails. -/
lemma Yields.of_none (visit : p.visit text c = .opened []) : p.Yields text c (.ok false) := by
  rw [yields_of_visit_opened visit, yieldsFirst_nil]

/-- Two ways to go on give the answer yes if one of them does. -/
lemma Yields.of_two {found found' : Bool} (visit : p.visit text c = .opened [a, b])
    (first : p.Yields text a (.ok found)) (second : p.Yields text b (.ok found')) :
    p.Yields text c (.ok (found || found')) := by
  rw [yields_of_visit_opened visit, yieldsFirst_cons, yieldsFirst_cons, yieldsFirst_nil]
  cases found with
  | true => exact .inr ⟨first, nofun⟩
  | false =>
    refine .inl ⟨first, ?_⟩
    cases found' with
    | true => exact .inr ⟨second, nofun⟩
    | false => exact .inl ⟨second, rfl⟩

/-- A place yields one verdict only. -/
lemma Yields.unique {verdict' : Verdict} (yields : p.Yields text c verdict) (yields' : p.Yields text c verdict') :
    verdict = verdict' := by
  obtain ⟨fuel, evaluated⟩ := yields
  obtain ⟨fuel', evaluated'⟩ := yields'
  have large := evaluate_mono evaluated (Nat.le_max_left fuel fuel')
  have large' := evaluate_mono evaluated' (Nat.le_max_right fuel fuel')
  exact Option.some.inj (large.symm.trans large')

/-- Behind the end of the text nothing is left but to accept. -/
lemma yields_textEnd (at_pc : p.instr? pc = some .textEnd) (accepts : p.instr? (pc + 1) = some .accept)
    (within : pos ≤ text.size) : p.Yields text ⟨⟨pc, pos, false⟩, saved⟩ (.ok (decide (pos = text.size))) := by
  rcases Nat.lt_or_eq_of_le within with before | ends
  · rw [decide_eq_false (Nat.ne_of_lt before)]
    exact .of_none (visit_textEnd_of_before at_pc before)
  · rw [decide_eq_true ends]
    refine .of_one (visit_textEnd_of_ends at_pc (Nat.le_of_eq ends.symm)) ?_
    exact (yields_of_settled (visit_settled_iff.mp (visit_accept accepts))).mpr rfl

end Program

/-! ## Runs of bytes -/

namespace Text

/-- The number of bytes out of a set that stand one after another from a position on. -/
def run (text : Text) (set : ByteSet) (i : Nat) : Nat := ((text.toList.drop i).takeWhile set.contains).length

/-- The bytes from a position to the end of the text are all in a set. -/
def fills (text : Text) (set : ByteSet) (i : Nat) : Bool := i + text.run set i = text.size

variable {text : Text} {set : ByteSet} {i : Nat}

/-- A byte of the set makes the run from there longer by one than the run behind it. -/
lemma run_of_holdsAt (holds : text.holdsAt set.contains i) : text.run set i = text.run set (i + 1) + 1 := by
  rw [holdsAt, Option.any_eq_true] at holds
  obtain ⟨b, at_i, mem⟩ := holds
  obtain ⟨lt, rfl⟩ := Array.getElem?_eq_some_iff.mp at_i
  rw [run, List.drop_eq_getElem_cons (by simpa using lt), List.takeWhile_cons_of_pos (by simpa using mem),
    List.length_cons, run]

/-- The run from any other place is empty. -/
lemma run_of_not_holdsAt (fails : ¬ text.holdsAt set.contains i) : text.run set i = 0 := by
  rcases Nat.lt_or_ge i text.size with lt | ge
  · rw [holdsAt, Array.getElem?_eq_getElem lt] at fails
    rw [run, List.drop_eq_getElem_cons (by simpa using lt), List.takeWhile_cons_of_neg (by simpa using fails),
      List.length_nil]
  · rw [run, List.drop_eq_nil_of_le (by simpa using ge), List.takeWhile_nil, List.length_nil]

/-- Behind the end of the text there is no byte of the set. -/
lemma not_holdsAt_of_size_le (ge : text.size ≤ i) : ¬ text.holdsAt set.contains i := by
  rw [holdsAt, Array.getElem?_eq_none ge]
  exact Bool.false_ne_true

/-- Induction on the length of a run: it is empty, or it begins with a byte of the text and goes on behind it. -/
lemma run_induction (text : Text) (set : ByteSet) {motive : Nat → Prop}
    (empty : ∀ i, ¬ text.holdsAt set.contains i → motive i)
    (longer : ∀ i, text.holdsAt set.contains i → i < text.size → motive (i + 1) → motive i) (i : Nat) :
    motive i := by
  induction length : text.run set i generalizing i with
  | zero =>
    refine empty i fun holds => ?_
    rw [run_of_holdsAt holds] at length
    cases length
  | succ n ih =>
    by_cases holds : text.holdsAt set.contains i
    · have before : i < text.size := by
        by_contra ge
        exact not_holdsAt_of_size_le (Nat.not_lt.mp ge) holds
      rw [run_of_holdsAt holds, Nat.succ.injEq] at length
      exact longer i holds before (ih (i + 1) length)
    · rw [run_of_not_holdsAt holds] at length
      cases length

/-- From a byte of the set on, the run reaches the end if the run behind it does. -/
lemma fills_of_holdsAt (holds : text.holdsAt set.contains i) : text.fills set i = text.fills set (i + 1) := by
  rw [fills, fills, run_of_holdsAt holds, Nat.add_assoc, Nat.add_comm 1]

/-- From any other place on, the run reaches the end only if that place is the end. -/
lemma fills_of_not_holdsAt (fails : ¬ text.holdsAt set.contains i) :
    text.fills set i = decide (i = text.size) := by
  rw [fills, run_of_not_holdsAt fails, Nat.add_zero]

/-- The run from the end of the text reaches the end. -/
lemma fills_of_ends (ends : decide (i = text.size)) : text.fills set i := by
  rw [decide_eq_true_eq] at ends
  rw [fills_of_not_holdsAt (not_holdsAt_of_size_le (Nat.le_of_eq ends.symm))]
  exact decide_eq_true ends

/-- That a place is the end adds nothing to that the run from there reaches the end. -/
lemma fills_or_ends : (text.fills set i || decide (i = text.size)) = text.fills set i :=
  Bool.or_eq_left_iff_imp.mpr fills_of_ends

/-- The run from the beginning is the whole text if all bytes are in the set. -/
lemma fills_zero_iff : text.fills set 0 ↔ ∀ b ∈ text, set.contains b := by
  have first : (text.toList.takeWhile set.contains).length = text.toList.length ↔
      text.toList.takeWhile set.contains = text.toList :=
    ⟨(List.takeWhile_prefix _).eq_of_length, congrArg List.length⟩
  rw [fills, decide_eq_true_eq, Nat.zero_add, run, List.drop_zero, ← Array.length_toList, first,
    List.takeWhile_eq_self_iff]
  simp only [Array.mem_toList_iff]

end Text

namespace Program

variable {p : Program} {text : Text} {set : ByteSet} {top i : Nat} {saved : List Nat}

/-- A loop whose round may take a byte out of a set or nothing, and which is left behind it. -/
structure Loops (p : Program) (set : ByteSet) (top : Nat) : Prop where
  saves : p.instr? top = some .savePos
  branches : p.instr? (top + 1) = some (.branchFirst 2)
  takes : ∃ id, p.instr? (top + 2) = some (.byteClass id false) ∧ p.class? id = some set
  repeats : p.instr? (top + 3) = some (.jumpIfAdvanced (-3))
  leaves : ∃ next, p.instr? (top + 4) = some next ∧ ¬ next.isAccept

/-- What the places behind a loop have to give from `i` on: an answer that is yes at the end of the text, and yes
only if all bytes from the cursor to the end are in the set. -/
def Exits (p : Program) (text : Text) (set : ByteSet) (pc : Nat) (saved : List Nat) (i : Nat) : Prop :=
  ∀ j, i ≤ j → j ≤ text.size → ∃ found, p.Yields text ⟨⟨pc, j, false⟩, saved⟩ (.ok found) ∧
    (j = text.size → found) ∧ (found → text.fills set j)

namespace Loops

variable (loops : p.Loops set top)
include loops

/-- The branch in the loop leads past the byte, to the jump at the bottom. -/
lemma target_branch : p.target (top + 1) 2 = .ok (top + 3) := by
  obtain ⟨lt, _⟩ := Array.getElem?_eq_some_iff.mp loops.repeats
  exact target_eq_ok_iff.mpr ⟨by rw [show (2 : Int32).toInt = 2 from rfl]; omega, lt⟩

/-- The jump at the bottom of the loop leads to its top. -/
lemma target_repeat : p.target (top + 3) (-3) = .ok top := by
  obtain ⟨lt, _⟩ := Array.getElem?_eq_some_iff.mp loops.saves
  exact target_eq_ok_iff.mpr ⟨by rw [show (-3 : Int32).toInt = -3 from rfl]; omega, lt⟩

/-- A round saves the cursor and takes a byte, or takes nothing and leaves the loop. -/
lemma yields_round {found exit : Bool} (take : p.Yields text ⟨⟨top + 2, i, false⟩, i :: saved⟩ (.ok found))
    (leave : p.Yields text ⟨⟨top + 4, i, false⟩, saved⟩ (.ok exit)) :
    p.Yields text ⟨⟨top, i, false⟩, saved⟩ (.ok (found || exit)) := by
  have skip : p.Yields text ⟨⟨top + 3, i, false⟩, i :: saved⟩ (.ok exit) := .of_one (visit_still loops.repeats) leave
  refine .of_one (visit_savePos loops.saves) ?_
  exact .of_two (visit_branchFirst loops.branches loops.target_branch loops.repeats nofun) take skip

/-- A byte that is taken moves the cursor, so the loop begins again, and may be left as well. -/
lemma yields_taken {found exit : Bool} (holds : text.holdsAt set.contains i)
    (again : p.Yields text ⟨⟨top, i + 1, false⟩, saved⟩ (.ok found))
    (leave : p.Yields text ⟨⟨top + 4, i + 1, false⟩, saved⟩ (.ok exit)) :
    p.Yields text ⟨⟨top + 2, i, false⟩, i :: saved⟩ (.ok (found || exit)) := by
  obtain ⟨id, takes, found_class⟩ := loops.takes
  obtain ⟨next, at_next, goes_on⟩ := loops.leaves
  refine .of_one (visit_byteClass_of_holdsAt takes found_class holds) ?_
  exact .of_two (visit_moved loops.repeats loops.target_repeat at_next goes_on (Nat.ne_of_lt (Nat.lt_succ_self i)))
    again leave

/-- Where no byte can be taken the body of the loop fails. -/
lemma yields_not_taken (fails : ¬ text.holdsAt set.contains i) :
    p.Yields text ⟨⟨top + 2, i, false⟩, saved⟩ (.ok false) := by
  obtain ⟨id, takes, found_class⟩ := loops.takes
  exact .of_none (visit_byteClass_of_not_holdsAt takes found_class fails)

/-- The loop gives the answer yes if the bytes from the cursor to the end of the text are all in the set. -/
lemma yields (exits : p.Exits text set (top + 4) saved i) (within : i ≤ text.size) :
    p.Yields text ⟨⟨top, i, false⟩, saved⟩ (.ok (text.fills set i)) := by
  -- each round but the last one takes a byte of the run
  induction i using text.run_induction set with
  | empty i fails =>
    obtain ⟨exit, leave, at_end, only⟩ := exits i (Nat.le_refl i) within
    have same : exit = text.fills set i := by
      rw [Bool.eq_iff_iff]
      refine ⟨only, fun fills => at_end ?_⟩
      rw [Text.fills_of_not_holdsAt fails, decide_eq_true_eq] at fills
      exact fills
    have yields := loops.yields_round (loops.yields_not_taken fails) leave
    rwa [Bool.false_or, same] at yields
  | longer i holds before ih =>
    have again := ih (fun j le => exits j (Nat.le_of_succ_le le)) before
    obtain ⟨exit, leave, _, only⟩ := exits i (Nat.le_refl i) within
    obtain ⟨exit', leave', _, only'⟩ := exits (i + 1) (Nat.le_succ i) before
    have yields := loops.yields_round (loops.yields_taken holds again leave') leave
    -- the ways out add nothing to what coming back to the top gives
    rw [Text.fills_of_holdsAt holds] at only
    rw [Bool.or_eq_left_iff_imp.mpr only', Bool.or_eq_left_iff_imp.mpr only] at yields
    rwa [Text.fills_of_holdsAt holds]

end Loops

/-- A program that begins with a branch past a loop, to the end of the text, gives the answer of the loop. -/
lemma yields_start_of_optional (tail : Nat) {offset : Int32} (starts : p.instr? 0 = some (.textStart false))
    (branches : p.instr? 1 = some (.branchFirst offset)) (resolved : p.target 1 offset = .ok tail)
    (ends : p.instr? tail = some .textEnd) (accepts : p.instr? (tail + 1) = some .accept)
    (loop : p.Yields text ⟨⟨2, 0, false⟩, []⟩ (.ok (text.fills set 0))) :
    p.Yields text .start (.ok (text.fills set 0)) := by
  have pass : p.Yields text ⟨⟨tail, 0, false⟩, []⟩ (.ok (decide (0 = text.size))) :=
    yields_textEnd ends accepts (Nat.zero_le text.size)
  refine .of_one (visit_textStart starts) ?_
  rw [← Text.fills_or_ends]
  exact .of_two (visit_branchFirst branches resolved ends nofun) loop pass

/-! ## The programs -/

/-- A byte class, once or more. -/
def oneOrMore (classes : Array ByteSet) : Program :=
  ⟨#[.textStart false, .savePos, .byteClass 0 false, .jumpIfAdvanced (-2), .textEnd, .accept], classes⟩

/-- A byte class or nothing, as often as possible. -/
def zeroOrMore (classes : Array ByteSet) : Program :=
  ⟨#[.textStart false, .branchFirst 5, .savePos, .branchFirst 2, .byteClass 0 false, .jumpIfAdvanced (-3),
      .textEnd, .accept], classes⟩

/-- The same within a repetition of its own. -/
def zeroOrMoreNested (classes : Array ByteSet) : Program :=
  ⟨#[.textStart false, .branchFirst 8, .savePos, .branchFirst 5, .savePos, .branchFirst 2, .byteClass 0 false,
      .jumpIfAdvanced (-3), .jumpIfAdvanced (-6), .textEnd, .accept], classes⟩

variable {classes : Array ByteSet}

/-- The ways out of the loop that `oneOrMore` puts off, one behind each byte up to a position, newest first. -/
def exitsUpTo : Nat → List Place
  | 0 => []
  | n + 1 => ⟨⟨4, n + 1, false⟩, []⟩ :: exitsUpTo n

/-- There is one way out of the loop for each byte that has been taken. -/
lemma length_exitsUpTo (n : Nat) : (exitsUpTo n).length = n := by
  induction n with
  | zero => rfl
  | succ n ih => rw [exitsUpTo, List.length_cons, ih]

/-- Of the ways out that have been put off, only one at the end of the text gives the answer yes. -/
lemma works_exitsUpTo {n : Nat} (within : n ≤ text.size) :
    (oneOrMore classes).Works text (exitsUpTo n) (.ok (decide (1 ≤ n ∧ n = text.size))) (n - 1) := by
  induction n with
  | zero => exact .done
  | succ n ih =>
    rcases Nat.lt_or_eq_of_le within with before | ends
    · have others := ih (Nat.le_of_succ_le within)
      rw [decide_eq_false (by omega)] at others
      have works : (oneOrMore classes).Works text (exitsUpTo (n + 1)) (.ok false) (max (exitsUpTo n).length (n - 1)) :=
        .opened (visit_textEnd_of_before rfl before) others
      rw [length_exitsUpTo, Nat.max_eq_left (Nat.sub_le ..)] at works
      rwa [decide_eq_false (by omega)]
    · have accepts : (oneOrMore classes).Works text (⟨⟨5, n + 1, false⟩, []⟩ :: exitsUpTo n) (.ok true) n := by
        have works : (oneOrMore classes).Works text (⟨⟨5, n + 1, false⟩, []⟩ :: exitsUpTo n) (.ok true)
            (exitsUpTo n).length := .settled (visit_accept rfl)
        rwa [length_exitsUpTo] at works
      rw [decide_eq_true ⟨Nat.le_add_left .., ends⟩]
      exact .of_opened (visit_textEnd_of_ends rfl (Nat.le_of_eq ends.symm)) accepts (Nat.le_of_eq (length_exitsUpTo n))

section

variable (class0 : classes[0]? = some set)
include class0

/-- The loop of the second program begins at instruction 2. -/
lemma loops_zeroOrMore : (zeroOrMore classes).Loops set 2 where
  saves := rfl
  branches := rfl
  takes := ⟨0, rfl, class0⟩
  repeats := rfl
  leaves := ⟨.textEnd, rfl, nofun⟩

/-- The second program matches the texts all of whose bytes are in the set. -/
lemma yields_zeroOrMore : (zeroOrMore classes).Yields text .start (.ok (text.fills set 0)) := by
  refine yields_start_of_optional 6 rfl rfl rfl rfl rfl ?_
  refine (loops_zeroOrMore class0).yields (fun j _ within => ?_) (Nat.zero_le _)
  exact ⟨decide (j = text.size), yields_textEnd rfl rfl within, decide_eq_true, Text.fills_of_ends⟩

/-- The inner loop of the third program begins at instruction 4. -/
lemma loops_zeroOrMoreNested : (zeroOrMoreNested classes).Loops set 4 where
  saves := rfl
  branches := rfl
  takes := ⟨0, rfl, class0⟩
  repeats := rfl
  leaves := ⟨.jumpIfAdvanced (-6), rfl, nofun⟩

/-- A round of the outer loop gives the answer yes if the bytes from the cursor to the end are all in the set. -/
lemma yields_outer (within : i ≤ text.size) :
    (zeroOrMoreNested classes).Yields text ⟨⟨2, i, false⟩, []⟩ (.ok (text.fills set i)) := by
  -- the outer loop comes back to its top only with less text ahead
  induction ahead : text.size - i using Nat.strongRecOn generalizing i with
  | ind ahead ih =>
    have pass (j : Nat) (le : j ≤ text.size) :
        (zeroOrMoreNested classes).Yields text ⟨⟨9, j, false⟩, []⟩ (.ok (decide (j = text.size))) :=
      yields_textEnd rfl rfl le
    have still : (zeroOrMoreNested classes).Yields text ⟨⟨8, i, false⟩, [i]⟩ (.ok (decide (i = text.size))) :=
      .of_one (visit_still rfl) (pass i within)
    have exits : (zeroOrMoreNested classes).Exits text set 8 [i] i := by
      intro j le within'
      rcases Nat.eq_or_lt_of_le le with rfl | moved
      · exact ⟨decide (i = text.size), still, decide_eq_true, Text.fills_of_ends⟩
      · have again := ih (text.size - j) (by omega) within' rfl
        have visit : (zeroOrMoreNested classes).visit text ⟨⟨8, j, false⟩, [i]⟩ =
            .opened [⟨⟨2, j, false⟩, []⟩, ⟨⟨9, j, false⟩, []⟩] := visit_moved rfl rfl rfl nofun (Nat.ne_of_lt moved)
        have yields := Yields.of_two visit again (pass j within')
        rw [Text.fills_or_ends] at yields
        exact ⟨text.fills set j, yields, fun ends => Text.fills_of_ends (decide_eq_true ends), id⟩
    have inner := (loops_zeroOrMoreNested class0).yields exits within
    have branch : (zeroOrMoreNested classes).visit text ⟨⟨3, i, false⟩, [i]⟩ =
        .opened [⟨⟨4, i, false⟩, [i]⟩, ⟨⟨8, i, false⟩, [i]⟩] := visit_branchFirst rfl rfl rfl nofun
    rw [← Text.fills_or_ends]
    exact .of_one (visit_savePos rfl) (.of_two branch inner still)

/-- The third program matches the same texts. -/
lemma yields_zeroOrMoreNested : (zeroOrMoreNested classes).Yields text .start (.ok (text.fills set 0)) :=
  yields_start_of_optional 9 rfl rfl rfl rfl rfl (yields_outer class0 (Nat.zero_le _))

/-- From a round of `oneOrMore` on, the bytes of the run are taken first, with a way out put off behind each of them.
Then these are visited. -/
lemma works_oneOrMore (within : i ≤ text.size) :
    (oneOrMore classes).Works text (⟨⟨1, i, false⟩, []⟩ :: exitsUpTo i)
      (.ok (decide (1 ≤ i + text.run set i ∧ i + text.run set i = text.size))) (i + text.run set i) := by
  induction i using text.run_induction set with
  | empty i fails =>
    have later : (oneOrMore classes).Works text (⟨⟨2, i, false⟩, [i]⟩ :: exitsUpTo i)
        (.ok (decide (1 ≤ i ∧ i = text.size))) (max (exitsUpTo i).length (i - 1)) :=
      .opened (visit_byteClass_of_not_holdsAt rfl class0 fails) (works_exitsUpTo within)
    rw [length_exitsUpTo, Nat.max_eq_left (Nat.sub_le ..)] at later
    rw [Text.run_of_not_holdsAt fails, Nat.add_zero]
    exact .of_opened (visit_savePos rfl) later (Nat.le_of_eq (length_exitsUpTo i))
  | longer i holds before ih =>
    have counted : (exitsUpTo i).length ≤ i + text.run set i := by
      rw [length_exitsUpTo]
      exact Nat.le_add_right ..
    have back : (oneOrMore classes).visit text ⟨⟨3, i + 1, false⟩, [i]⟩ =
        .opened [⟨⟨1, i + 1, false⟩, []⟩, ⟨⟨4, i + 1, false⟩, []⟩] :=
      visit_moved rfl rfl rfl nofun (Nat.ne_of_lt (Nat.lt_succ_self i))
    have again := ih before
    rw [Nat.add_assoc, Nat.add_comm 1, ← Text.run_of_holdsAt holds] at again
    -- the way out of this round comes before those of the earlier ones
    have later := Program.Works.of_opened back again counted
    refine .of_opened (visit_savePos rfl) ?_ counted
    exact .of_opened (visit_byteClass_of_holdsAt rfl class0 holds) later counted

end

end Program

namespace Matcher

open Program

/-- Without a limit, a match of a program that yields a verdict ends with that verdict. -/
lemma exists_test_of_yields (m : Matcher) (unlimited : m.limit = 0) {p : Program} {text : Text} {verdict : Verdict}
    (yields : p.Yields text .start verdict) :
    ∃ budget o, m.test budget p text = some o ∧ o.verdict = verdict := by
  obtain ⟨budget, ends⟩ := m.exists_run_of_yields yields
  obtain ⟨o, test⟩ := Option.isSome_iff_exists.mp (test_isSome_of_run ends)
  obtain yields' | ⟨limited, _⟩ := yields_of_test test
  · exact ⟨budget, o, test, yields'.unique yields⟩
  · exact absurd unlimited limited

/-- Without a limit, the three programs match just the texts that they stand for, and the peak of the first one is
the number of bytes out of the class that the text begins with. -/
theorem test_repetitions (m : Matcher) (unlimited : m.limit = 0) {classes : Array ByteSet} {set : ByteSet}
    (class0 : classes[0]? = some set) (text : Text) :
    (∃ budget o found, m.test budget (oneOrMore classes) text = some o ∧ o.verdict = .ok found ∧
      (found ↔ text ≠ #[] ∧ ∀ b ∈ text, set.contains b) ∧
        o.matcher.stats.peak = (text.toList.takeWhile set.contains).length) ∧
      (∃ budget o found, m.test budget (zeroOrMore classes) text = some o ∧ o.verdict = .ok found ∧
        (found ↔ ∀ b ∈ text, set.contains b)) ∧
      ∃ budget o found, m.test budget (zeroOrMoreNested classes) text = some o ∧ o.verdict = .ok found ∧
        (found ↔ ∀ b ∈ text, set.contains b) := by
  refine ⟨?_, ?_, ?_⟩
  · have works := works_oneOrMore class0 (Nat.zero_le text.size)
    rw [Nat.zero_add] at works
    obtain ⟨budget, o, test, answer, peak⟩ :=
      m.exists_test_of_works unlimited rfl (.of_opened (visit_textStart rfl) works (Nat.zero_le _))
    refine ⟨budget, o, _, test, answer, ?_, peak⟩
    rw [decide_eq_true_eq, ← Text.fills_zero_iff, Text.fills, decide_eq_true_eq, Nat.zero_add, ne_eq,
      ← Array.size_eq_zero_iff]
    omega
  · obtain ⟨budget, o, test, answer⟩ := m.exists_test_of_yields unlimited (yields_zeroOrMore class0)
    exact ⟨budget, o, _, test, answer, Text.fills_zero_iff⟩
  · obtain ⟨budget, o, test, answer⟩ := m.exists_test_of_yields unlimited (yields_zeroOrMoreNested class0)
    exact ⟨budget, o, _, test, answer, Text.fills_zero_iff⟩

/-- A text of two letters out of the class and one that is not in it, and a text of one letter. -/
theorem test_repetitions_letters :
    let m := Matcher.ofConfig ⟨0, .none⟩
    let classes := #[ByteSet.empty.insert 97]
    m.limit = 0 ∧ classes[0]? = some (ByteSet.empty.insert 97) ∧
      (∃ budget o, m.test budget (oneOrMore classes) #[97, 97, 98] = some o ∧ o.verdict = .ok false ∧
        o.matcher.stats.peak = 2) ∧
      ∃ budget o, m.test budget (zeroOrMoreNested classes) #[97] = some o ∧ o.verdict = .ok true := by
  intro m classes
  have unlimited : m.limit = 0 := rfl
  have class0 : classes[0]? = some (ByteSet.empty.insert 97) := rfl
  obtain ⟨⟨budget, o, found, test, answer, decides, peak⟩, _, _⟩ :=
    test_repetitions m unlimited class0 #[97, 97, 98]
  obtain ⟨_, _, budget', o', found', test', answer', decides'⟩ := test_repetitions m unlimited class0 #[97]
  have fails : found = false := by
    rw [← Bool.not_eq_true, decides]
    rintro ⟨_, all⟩
    have mem := all 98 (by simp)
    simp at mem
  have succeeds : found' = true := decides'.mpr (by simp)
  exact ⟨unlimited, class0, ⟨budget, o, test, fails ▸ answer, peak⟩, budget', o', test', succeeds ▸ answer'⟩

end Matcher

end PatternVM
