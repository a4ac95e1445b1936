import Mathlib.Order.Bounds.Basic
import PatternVM.Proofs.Stack.Room
import PatternVM.Stack.Choice

/-!
# The history of a stack of choice points

What a stack of choice points holds and how much room it has, after any operations in any order, is determined by what
has been done with it and what it has answered (`stack_of_run`). It holds the choice points that it has accepted and
that have been neither popped nor reset, the newest on top. Its peak is the greatest depth since the last reset, and
its storage the room for the greatest depth since it was made.
-/

namespace PatternVM

/-- An operation on a stack of choice points, with the answer that it has been given. -/
inductive ChoiceEvent
  | push (c : ChoicePoint) (answer : Except Fault Unit)
  | pop (answer : Option ChoicePoint)
  | reset
  | withLimit (limit : Nat)

namespace ChoiceEvent

/-- Whether the event is a reset. -/
def isReset : ChoiceEvent → Bool
  | reset => true
  | _ => false

/-- The limit that is in force after the event, if `limit` has been in force before. -/
def limits (limit : Nat) : ChoiceEvent → Nat
  | withLimit limit => limit
  | _ => limit

/-- The limit that has been set last, or the one that was in force at first. -/
def lastLimit (limit : Nat) (history : List ChoiceEvent) : Nat := history.foldl limits limit

/-- The choice points that are left after the event, if `points` have been left before. -/
def leaves (points : List ChoicePoint) : ChoiceEvent → List ChoicePoint
  | push c (.ok ()) => c :: points
  | push _ (.error _) => points
  | pop _ => points.tail
  | reset => []
  | withLimit _ => points

/-- The choice points that have been accepted and neither popped nor reset, the newest one in front. -/
def left (history : List ChoiceEvent) : List ChoicePoint := history.foldl leaves []

/-- The numbers of choice points that have been left at the times since when all events satisfy `p`. -/
def depths (p : ChoiceEvent → Prop) (history : List ChoiceEvent) : Set Nat :=
  {n | ∃ early late, early ++ late = history ∧ (∀ e ∈ late, p e) ∧ (left early).length = n}

end ChoiceEvent

namespace ChoiceStack

/-- What can be done with a stack. -/
inductive Step : ChoiceStack → ChoiceEvent → ChoiceStack → Prop where
  | push {s} (c : ChoicePoint) :
    Step s (.push c (s.push c).1) (s.push c).2
  | pop {s} :
    Step s (.pop s.pop.1) s.pop.2
  | reset {s} :
    Step s .reset s.reset
  | withLimit {s} (limit : Nat) :
    Step s (.withLimit limit) (s.withLimit limit)

/-- What has been done with a stack since it was made. -/
inductive Run (limit : Nat) : List ChoiceEvent → ChoiceStack → Prop where
  | made :
    Run limit [] (.ofLimit limit)
  | step {history e s s'} :
    Run limit history s →
    Step s e s' →
    Run limit (history ++ [e]) s'

end ChoiceStack

namespace ChoiceEvent

variable {p : ChoiceEvent → Prop} {history : List ChoiceEvent} {e : ChoiceEvent} {k : Nat}

/-- What is left after one more event is what it leaves of what was left before. -/
lemma left_concat : left (history ++ [e]) = e.leaves (left history) := List.foldl_append

/-- The limit after one more event is the one that it puts in force. -/
lemma lastLimit_concat {limit : Nat} : lastLimit limit (history ++ [e]) = e.limits (lastLimit limit history) :=
  List.foldl_append

/-- The number of choice points that are left now is among the depths. -/
lemma length_left_mem_depths : (left history).length ∈ depths p history :=
  ⟨history, [], List.append_nil _, nofun, rfl⟩

/-- The depths after one more event are those before, if it has the property, and the present one. -/
lemma mem_depths_concat {n : Nat} :
    n ∈ depths p (history ++ [e]) ↔ (p e ∧ n ∈ depths p history) ∨ n = (left (history ++ [e])).length := by
  constructor
  · rintro ⟨early, late, eq, all, rfl⟩
    obtain rfl | ⟨late', last, rfl⟩ := List.eq_nil_or_concat late
    · rw [List.append_nil] at eq
      exact .inr (congrArg (List.length <| left ·) eq)
    · rw [List.concat_eq_append] at eq all
      rw [← List.append_assoc] at eq
      obtain ⟨eq', last_eq⟩ := List.append_inj' eq rfl
      obtain rfl := List.singleton_inj.mp last_eq
      obtain ⟨all', here⟩ := List.forall_mem_append.mp all
      exact .inl ⟨here last (List.mem_singleton_self last), early, late', eq', all', rfl⟩
  · rintro (⟨here, early, late, rfl, all, rfl⟩ | rfl)
    · refine ⟨early, late ++ [e], (List.append_assoc ..).symm, ?_, rfl⟩
      exact List.forall_mem_append.mpr ⟨all, List.forall_mem_singleton.mpr here⟩
    · exact length_left_mem_depths

/-- The greatest depth is carried on over an event. -/
lemma isGreatest_depths_concat (h : IsGreatest (depths p history) k) (here : p e) :
    IsGreatest (depths p (history ++ [e])) (max k (left (history ++ [e])).length) := by
  constructor
  · rcases Nat.le_total k (left (history ++ [e])).length with le | le
    · rw [Nat.max_eq_right le]
      exact length_left_mem_depths
    · rw [Nat.max_eq_left le]
      exact mem_depths_concat.mpr (.inl ⟨here, h.1⟩)
  · intro n mem
    obtain ⟨_, before⟩ | rfl := mem_depths_concat.mp mem
    · exact Nat.le_trans (h.2 before) (Nat.le_max_left ..)
    · exact Nat.le_max_right ..

/-- An event that does not count is a new beginning. -/
lemma isGreatest_depths_of_not (here : ¬p e) :
    IsGreatest (depths p (history ++ [e])) (left (history ++ [e])).length := by
  refine ⟨length_left_mem_depths, fun n mem => ?_⟩
  obtain ⟨counts, _⟩ | rfl := mem_depths_concat.mp mem
  · exact absurd counts here
  · exact Nat.le_refl _

end ChoiceEvent

namespace ChoiceStack

open ChoiceEvent

variable {limit : Nat} {history : List ChoiceEvent} {e : ChoiceEvent} {s s' : ChoiceStack} {c : ChoicePoint}

/-! ## Single operations -/

/-- A stack is full if it has a limit and has reached it. -/
lemma isFull_iff : s.isFull ↔ s.limit ≠ 0 ∧ s.limit ≤ s.depth := by
  rw [isFull, Bool.and_eq_true, decide_eq_true_eq, decide_eq_true_eq]

/-- A full stack refuses a choice point and stays as it is. -/
lemma push_of_isFull (full : s.isFull) : s.push c = (.error .choiceLimit, s) := if_pos full

/-- Any other stack takes it, makes room if need be, and raises the peak if need be. -/
lemma push_of_not_isFull (free : ¬s.isFull) :
    s.push c =
      (.ok (),
        { s with
          points := s.points.push c
          capacity := roomForOne s.depth s.capacity
          peak := max s.peak (s.depth + 1) }) :=
  if_neg free

/-- A choice point is refused exactly if there is a limit and it has been reached. -/
lemma push_eq_error_iff : (s.push c).1 = .error .choiceLimit ↔ s.limit ≠ 0 ∧ s.limit ≤ s.depth := by
  rw [← isFull_iff]
  by_cases full : s.isFull
  · rw [push_of_isFull full]
    exact iff_of_true rfl full
  · rw [push_of_not_isFull full]
    exact iff_of_false nofun full

/-- A choice point that is pushed is the newest. -/
lemma reverse_points_push : (s.points.push c).toList.reverse = c :: s.points.toList.reverse := by
  rw [Array.toList_push, List.reverse_concat]

/-- Popping leaves all but the newest. -/
lemma reverse_points_pop : s.points.pop.toList.reverse = s.points.toList.reverse.tail := by
  rw [Array.toList_pop, List.tail_reverse]

/-- Popping gives the newest. -/
lemma pop_eq_head? : s.pop.1 = s.points.toList.reverse.head? := by
  rw [pop, List.head?_reverse, Array.getLast?_toList]

/-! ## Histories -/

/-- How a stack stands to its history, in which `high` has been its greatest depth. -/
structure Follows (limit : Nat) (history : List ChoiceEvent) (high : Nat) (s : ChoiceStack) : Prop where
  points : s.points.toList.reverse = left history
  limit : s.limit = lastLimit limit history
  peak : IsGreatest (depths (¬·.isReset) history) s.peak
  highest : IsGreatest (depths (fun _ => True) history) high
  capacity : s.capacity = roomFor high

/-- A new stack follows the history in which nothing has been done. -/
lemma Follows.made (limit : Nat) : Follows limit [] 0 (.ofLimit limit) := by
  have greatest (p : ChoiceEvent → Prop) : IsGreatest (depths p []) 0 := by
    refine ⟨length_left_mem_depths, ?_⟩
    rintro n ⟨early, late, eq, _, rfl⟩
    rw [(List.append_eq_nil_iff.mp eq).1]
    exact Nat.le_refl 0
  exact ⟨rfl, rfl, greatest _, greatest _, rfl⟩

namespace Follows

variable {high : Nat}

/-- The depth is the number of choice points that are left. -/
lemma depth_eq (h : Follows limit history high s) : s.depth = (left history).length := by
  rw [← h.points, List.length_reverse]
  rfl

/-- The depth is not above the greatest one. -/
lemma depth_le_high (h : Follows limit history high s) : s.depth ≤ high :=
  h.depth_eq ▸ h.highest.2 length_left_mem_depths

/-- An event that makes the stack no deeper and is no reset leaves the peak and the storage as they are. -/
lemma shrink (h : Follows limit history high s) (points : s'.points.toList.reverse = e.leaves (left history))
    (limit_eq : s'.limit = e.limits s.limit) (keeps : ¬e.isReset)
    (le : (e.leaves (left history)).length ≤ (left history).length) (peak : s'.peak = s.peak)
    (capacity : s'.capacity = s.capacity) : Follows limit (history ++ [e]) high s' := by
  have no_higher {p : ChoiceEvent → Prop} {k : Nat} (here : p e) (greatest : IsGreatest (depths p history) k) :
      IsGreatest (depths p (history ++ [e])) k := by
    have le_k : (left (history ++ [e])).length ≤ k :=
      left_concat ▸ Nat.le_trans le (greatest.2 length_left_mem_depths)
    exact Nat.max_eq_left le_k ▸ isGreatest_depths_concat greatest here
  refine ⟨?_, ?_, ?_, no_higher trivial h.highest, ?_⟩
  · rw [left_concat, points]
  · rw [lastLimit_concat, limit_eq, h.limit]
  · rw [peak]
    exact no_higher keeps h.peak
  · rw [capacity, h.capacity]

/-- Pushing follows, also if it is refused. -/
lemma push (h : Follows limit history high s) (c : ChoicePoint) :
    ∃ high', Follows limit (history ++ [.push c (s.push c).1]) high' (s.push c).2 := by
  by_cases full : s.isFull
  · rw [push_of_isFull full]
    exact ⟨high, h.shrink h.points rfl Bool.false_ne_true (Nat.le_refl _) rfl rfl⟩
  · rw [push_of_not_isFull full]
    have points : (s.points.push c).toList.reverse = left (history ++ [.push c (.ok ())]) := by
      rw [reverse_points_push, left_concat, h.points]
      rfl
    have deeper : (left (history ++ [.push c (.ok ())])).length = s.depth + 1 := by
      rw [← points, reverse_points_push, List.length_cons, List.length_reverse]
      rfl
    -- the depth now is the only new one, so it alone may raise the peak and call for more storage
    have stocked : Stocked high s.capacity (enlargements high) := ⟨h.capacity, rfl⟩
    refine ⟨max high (s.depth + 1), points, ?_, ?_, ?_, (stocked.enlarge h.depth_le_high).capacity⟩
    · rw [lastLimit_concat]
      exact h.limit
    · rw [← deeper]
      exact isGreatest_depths_concat h.peak Bool.false_ne_true
    · rw [← deeper]
      exact isGreatest_depths_concat h.highest trivial

/-- Popping follows, also if there is nothing to pop. -/
lemma pop (h : Follows limit history high s) : Follows limit (history ++ [.pop s.pop.1]) high s.pop.2 := by
  refine h.shrink ?_ rfl Bool.false_ne_true ?_ rfl rfl
  · rw [leaves, ← h.points]
    exact reverse_points_pop
  · rw [leaves, List.length_tail]
    exact Nat.sub_le ..

/-- Resetting follows. -/
lemma reset (h : Follows limit history high s) : Follows limit (history ++ [.reset]) high s.reset := by
  have empty : left (history ++ [.reset]) = [] := left_concat
  have greatest := isGreatest_depths_concat (e := .reset) h.highest trivial
  rw [empty, List.length_nil, Nat.max_zero] at greatest
  refine ⟨empty.symm, ?_, ?_, greatest, h.capacity⟩
  · rw [lastLimit_concat]
    exact h.limit
  · have beginning : IsGreatest (depths (¬·.isReset) (history ++ [.reset])) _ :=
      isGreatest_depths_of_not (not_not_intro rfl)
    rw [empty] at beginning
    exact beginning

/-- Changing the limit follows. -/
lemma withLimit (h : Follows limit history high s) (new : Nat) :
    Follows limit (history ++ [.withLimit new]) high (s.withLimit new) :=
  h.shrink h.points rfl Bool.false_ne_true (Nat.le_refl _) rfl rfl

/-- Whatever is done with a stack, it follows its history. -/
lemma step (h : Follows limit history high s) (step : Step s e s') :
    ∃ high', Follows limit (history ++ [e]) high' s' := by
  cases step with
  | push c => exact h.push c
  | pop => exact ⟨high, h.pop⟩
  | reset => exact ⟨high, h.reset⟩
  | withLimit new => exact ⟨high, h.withLimit new⟩

end Follows

/-- A stack follows everything that has been done with it. -/
lemma Run.follows (run : Run limit history s) : ∃ high, Follows limit history high s := by
  induction run with
  | made => exact ⟨0, .made limit⟩
  | step _ step ih =>
    obtain ⟨_, follows⟩ := ih
    exact follows.step step

/-- Whatever has been done with a stack of choice points, it holds those that it has accepted and that have been
neither popped nor reset, and pops the newest of them. It refuses a choice point just if there is a limit and the
depth has reached it, and then stays as it is. Its peak is the greatest depth since the last reset, and its capacity
the least multiple of 16 that is no less than the greatest depth ever. -/
theorem stack_of_run (run : Run limit history s) :
    s.points.toList.reverse = left history ∧
    s.depth = (left history).length ∧
    s.pop.1 = (left history).head? ∧
    s.limit = lastLimit limit history ∧
    (∀ c,
      ((s.push c).1 = .error .choiceLimit ↔ s.limit ≠ 0 ∧ s.limit ≤ s.depth) ∧
      ((s.push c).1 = .ok () ∨ (s.push c).1 = .error .choiceLimit ∧ (s.push c).2 = s)) ∧
    IsGreatest (depths (¬·.isReset) history) s.peak ∧
    ∃ high, IsGreatest (depths (fun _ => True) history) high ∧ s.capacity = 16 * ((high + 15) / 16) := by
  obtain ⟨high, follows⟩ := run.follows
  refine ⟨follows.points, follows.depth_eq, ?_, follows.limit, fun c => ⟨push_eq_error_iff, ?_⟩, follows.peak, high,
    follows.highest, follows.capacity⟩
  · rw [pop_eq_head?, follows.points]
  · by_cases full : s.isFull
    · rw [push_of_isFull full]
      exact .inr ⟨rfl, rfl⟩
    · rw [push_of_not_isFull full]
      exact .inl rfl

/-- The limit is lowered below the depth. A choice point is refused, and after a pop the next one too, since the depth
is still at the limit. -/
theorem stack_of_run_lowered :
    let c : ChoicePoint := ⟨⟨0, 1, true⟩, ⟨1, 1⟩⟩
    let d : ChoicePoint := ⟨⟨4, 2, false⟩, ⟨2, 1⟩⟩
    let history : List ChoiceEvent :=
      [.push c (.ok ()), .push d (.ok ()), .withLimit 1, .push c (.error .choiceLimit), .pop (some d)]
    ∃ s, Run 2 history s ∧ s.depth = 1 ∧ s.pop.1 = some c ∧ (s.push d).1 = .error .choiceLimit ∧
      IsGreatest (depths (¬·.isReset) history) 2 ∧ s.capacity = 16 := by
  intro c d history
  have run : Run 2 history ⟨#[c], 16, 1, 2⟩ :=
    ((((Run.made.step (.push c)).step (.push d)).step (.withLimit 1)).step (.push c)).step .pop
  obtain ⟨_, depth, newest, _, pushes, peak, _⟩ := stack_of_run run
  have refused := (pushes d).1.mpr ⟨Nat.one_ne_zero, Nat.le_refl 1⟩
  exact ⟨_, run, depth, newest, refused, peak, rfl⟩

end ChoiceStack

end PatternVM
