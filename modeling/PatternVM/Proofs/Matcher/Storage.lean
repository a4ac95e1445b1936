import PatternVM.Proofs.Search.Counters
import PatternVM.Proofs.Stack.Room

/-!
# Storage

How the storage of a matcher grows over one match after another. A reset gives nothing back, so a store always has just
the room for the greatest number of entries so far (`Stocked`). Every step of a search keeps that up
(`State.Supplied`), and so does every match: which one has needed so many entries, and how it has ended, does not
matter. Storage is taken to be granted, so there is no match that has failed for the lack of it.
-/

namespace PatternVM

namespace Event

/-- The new capacity of a store, if that is what is reported. -/
def growth? (store : Store) : Event → Option Nat
  | .grown grownStore capacity => if grownStore = store then some capacity else none
  | _ => none

end Event

/-- The capacities that a store has grown to. -/
def Log.growths (log : Log) (store : Store) : List Nat := log.toList.filterMap (Event.growth? store)

namespace State

/-- The greatest number of entries of a store since the start. -/
def need (s : State) : Store → Nat
  | .choices => s.choices.peak
  | .marks => s.marks.slots.size

/-- The capacity of a store in a state. -/
def capacity (s : State) : Store → Nat
  | .choices => s.choices.capacity
  | .marks => s.marks.capacity

/-- The stores of a search have just the room that they need, if before the search they had it for `high` entries and
`lines` had been reported. -/
def Supplied (s : State) (high : Store → Nat) (lines : Store → List Nat) : Prop :=
  ∀ store, Stocked (max (high store) (s.need store)) (s.capacity store) (lines store ++ s.log.growths store)

end State

namespace Matcher

/-- The capacity of a store of a matcher. -/
def capacity (m : Matcher) : Store → Nat
  | .choices => m.choices.capacity
  | .marks => m.marks.capacity

end Matcher

namespace Outcome

/-- Whether the program was run. -/
def isGeneral (o : Outcome) : Bool := !o.matcher.stats.fastPath

/-- The greatest number of entries of a store during a run: choice points, or slots for saved positions with the
bottom and the head among them. -/
def need (o : Outcome) : Store → Nat
  | .choices => o.matcher.stats.peak
  | .marks => o.matcher.marks.slots.size

end Outcome

/-- The greatest number of entries that a store has needed, over all matches that have run their programs. -/
def greatestNeed (store : Store) (outcomes : List Outcome) : Nat :=
  ((outcomes.filter Outcome.isGeneral).map (·.need store)).foldl max 0

/-- A matcher that has been made from `c`, and the outcomes of its matches so far. -/
inductive Matcher.Life (c : Config) : Matcher → List Outcome → Prop where
  | new :
    Life c (.ofConfig c) []
  | test {m outcomes budget p text o} :
    Life c m outcomes →
    m.test budget p text = some o →
    Life c o.matcher (outcomes ++ [o])

/-! ## What is reported -/

namespace Log

variable {log : Log} {store other : Store}

/-- One more report is one more growth if it is the report of one. -/
lemma growths_push (e : Event) : Log.growths (log.push e) store = log.growths store ++ (e.growth? store).toList := by
  rw [growths, Array.toList_push, List.filterMap_append]
  cases grown : e.growth? store with
  | none =>
    rw [List.filterMap_cons_none grown]
    rfl
  | some n =>
    rw [List.filterMap_cons_some grown]
    rfl

/-- The growths of a store are those before and the one that is reported, if its capacity has changed. -/
lemma growths_addGrowth (before after : Nat) :
    (log.addGrowth store before after).growths store = log.growths store ++ grown before after := by
  rw [addGrowth, grown]
  split
  · exact (List.append_nil _).symm
  · rw [growths_push, Event.growth?, if_pos rfl]
    rfl

/-- The report on one store is no growth of the other one. -/
lemma growths_addGrowth_of_ne (ne : store ≠ other) (before after : Nat) :
    (log.addGrowth store before after).growths other = log.growths other := by
  rw [addGrowth]
  split
  · rfl
  · rw [growths_push, Event.growth?, if_neg ne]
    exact List.append_nil _

end Log

/-! ## One step -/

namespace State

variable {s t : State} {high : Store → Nat} {lines : Store → List Nat}

/-- Nothing but the greatest numbers of entries, the capacities and the reports of growth matters. -/
lemma Supplied.congr (h : s.Supplied high lines) (peak : t.choices.peak = s.choices.peak)
    (room : t.choices.capacity = s.choices.capacity) (size : t.marks.slots.size = s.marks.slots.size)
    (room' : t.marks.capacity = s.marks.capacity) (growths : t.log.growths = s.log.growths) :
    t.Supplied high lines := by
  intro store
  rw [growths]
  cases store with
  | choices =>
    rw [need, capacity, peak, room]
    exact h .choices
  | marks =>
    rw [need, capacity, size, room']
    exact h .marks

/-- A search begins with the storage that its matcher has, and reports what `reset` adds to it. -/
lemma Supplied.start {m : Matcher} (h : ∀ store, Stocked (high store) (m.capacity store) (lines store)) :
    (State.start m.choices m.marks).Supplied high lines := by
  intro store
  cases store with
  | choices =>
    have quiet : (State.start m.choices m.marks).log.growths .choices = [] :=
      Log.growths_addGrowth_of_ne (by decide) _ _
    rw [quiet, List.append_nil]
    show Stocked (max (high .choices) 0) m.choices.capacity (lines .choices)
    rw [Nat.max_zero]
    exact h .choices
  | marks =>
    have reported : (State.start m.choices m.marks).log.growths .marks =
        grown m.marks.capacity m.marks.reset.capacity := @Log.growths_addGrowth #[] _ _ _
    rw [reported]
    exact (h .marks).enlarge_two

/-- Going back needs no storage. -/
lemma Supplied.backtrack (h : s.Supplied high lines) : s.backtrack.state.Supplied high lines := by
  rw [State.backtrack, ChoiceStack.pop]
  cases s.choices.points.back? with
  | none => exact h.congr rfl rfl rfl rfl rfl
  | some c => exact h.congr rfl rfl MarkStack.size_restore rfl rfl

/-- Putting an alternative off takes the peak to the depth that it makes, and room is made for it if need be. -/
lemma Supplied.putOff (h : s.Supplied high lines) (le : s.choices.depth ≤ s.choices.peak) (alternative : Thread) :
    (s.putOff alternative).state.Supplied high lines := by
  rw [State.putOff, ChoiceStack.push]
  by_cases full : s.choices.isFull
  · rw [if_pos full]
    exact h.congr rfl rfl rfl rfl rfl
  · rw [if_neg full]
    intro store
    cases store with
    | choices =>
      have enlarged := (h .choices).enlarge (Nat.le_trans le (Nat.le_max_right (high .choices) s.choices.peak))
      rw [Nat.max_assoc, List.append_assoc, ← Log.growths_addGrowth] at enlarged
      exact enlarged
    | marks =>
      show Stocked _ _ (_ ++ (Log.addGrowth _ Store.choices _ _).growths Store.marks)
      rw [Log.growths_addGrowth_of_ne (by decide)]
      exact h .marks

/-- A position that is saved is given a slot if need be; what else a move does to saved positions needs no storage. -/
lemma Supplied.useMarks (h : s.Supplied high lines) (use : MarkUse) : (s.useMarks use).Supplied high lines := by
  cases use with
  | keep => exact h
  | drop => exact h.congr rfl rfl MarkStack.size_drop MarkStack.capacity_drop rfl
  | save pos =>
    intro store
    cases store with
    | choices =>
      show Stocked _ _ (_ ++ (Log.addGrowth _ Store.marks _ _).growths Store.choices)
      rw [Log.growths_addGrowth_of_ne (by decide)]
      exact h .choices
    | marks =>
      show Stocked (max _ (s.marks.push pos s.choices.depth).slots.size) (s.marks.push pos s.choices.depth).capacity
        (_ ++ (Log.addGrowth _ Store.marks _ (s.marks.push pos s.choices.depth).capacity).growths Store.marks)
      rw [Log.growths_addGrowth]
      obtain ⟨size, room⟩ | ⟨size, room⟩ := @MarkStack.push_cases s.marks pos s.choices.depth
      · have reported : grown s.marks.capacity s.marks.capacity = [] := if_pos rfl
        rw [size, room, reported, List.append_nil]
        exact h .marks
      · have enlarged := (h .marks).enlarge (Nat.le_max_right (high .marks) s.marks.slots.size)
        rw [Nat.max_assoc, List.append_assoc, State.need, Nat.max_eq_right (Nat.le_succ _)] at enlarged
        rw [size, room]
        exact enlarged

/-- Whatever a move needs is there or is reported. -/
lemma Supplied.perform (h : s.Supplied high lines) (le : s.choices.depth ≤ s.choices.peak) (move : Move) :
    (s.perform move).state.Supplied high lines := by
  -- room is made by the depth and accounted for by the peak, so the one must not get above the other
  have kept : (s.perform move).state.Supplied high lines ∧
      (s.perform move).state.choices.depth ≤ (s.perform move).state.choices.peak := by
    refine perform_keeps (I := fun t => t.Supplied high lines ∧ t.choices.depth ≤ t.choices.peak) ⟨h, le⟩
      ?_ ?_ ?_ ?_ move
    · rintro t use ⟨h, le⟩
      rw [choices_useMarks]
      exact ⟨h.useMarks use, le⟩
    · exact fun t next ⟨h, le⟩ => ⟨h.congr rfl rfl rfl rfl rfl, le⟩
    · exact fun t alternative ⟨h, le⟩ => ⟨h.putOff le alternative, depth_le_peak_putOff le alternative⟩
    · exact fun t ⟨h, le⟩ => ⟨h.backtrack, depth_le_peak_backtrack le⟩
  exact kept.1

end State

namespace Search

variable {search : Search} {s t : State} {high : Store → Nat} {lines : Store → List Nat}

/-- A step that performs an instruction reports no growth but that of the move. -/
lemma exists_quiet_step {instr : Instr} (at_pc : search.program.instr? s.thread.pc = some instr) :
    ∃ log : Log, log.growths = s.log.growths ∧ search.step s = State.perform { s with steps := s.steps + 1, log }
      (search.program.move search.text s.thread (s.marks.newest?.map Mark.pos) instr) := by
  rw [step, stepBy]
  simp only [at_pc]
  cases search.tracing with
  | false => exact ⟨s.log, rfl, rfl⟩
  | true =>
    refine ⟨s.log.push (.step s.thread s.choices.depth instr), ?_, rfl⟩
    funext store
    exact (Log.growths_push _).trans (List.append_nil _)

/-- Whatever a step needs is there or is reported. -/
lemma supplied_step (h : s.Supplied high lines) (le : s.choices.depth ≤ s.choices.peak) :
    (search.step s).state.Supplied high lines := by
  cases at_pc : search.program.instr? s.thread.pc with
  | none =>
    rw [search.step_of_none at_pc]
    exact h.congr rfl rfl rfl rfl rfl
  | some instr =>
    obtain ⟨log, quiet, step⟩ := exists_quiet_step at_pc
    rw [step]
    have counted : State.Supplied { s with steps := s.steps + 1, log } high lines := h.congr rfl rfl rfl rfl quiet
    exact counted.perform le _

/-- Whatever a run needs is there or is reported. -/
lemma supplied_run {budget : Nat} {verdict : Verdict} (run : search.run budget s = some (verdict, t))
    (h : s.Supplied high lines) (le : s.choices.depth ≤ s.choices.peak) : t.Supplied high lines := by
  have kept := run_keeps (I := fun s => s.choices.depth ≤ s.choices.peak ∧ s.Supplied high lines) run
    (fun s ⟨le, h⟩ => ⟨search.depth_le_peak_step le, supplied_step h le⟩) ⟨le, h⟩
  exact kept.2

end Search

/-! ## What has been needed does not get less -/

namespace State

variable (s : State)

/-- What a move does to the saved positions takes no slot away. -/
lemma size_useMarks (use : MarkUse) : s.marks.slots.size ≤ (s.useMarks use).marks.slots.size := by
  cases use with
  | keep => exact Nat.le_refl _
  | drop => exact Nat.le_of_eq MarkStack.size_drop.symm
  | save pos =>
    obtain ⟨size, _⟩ | ⟨size, _⟩ := @MarkStack.push_cases s.marks pos s.choices.depth
    · exact Nat.le_of_eq size.symm
    · exact Nat.le_trans (Nat.le_succ _) (Nat.le_of_eq size.symm)

/-- Putting an alternative off leaves the saved positions as they are. -/
lemma marks_putOff (alternative : Thread) : (s.putOff alternative).state.marks = s.marks := by
  obtain ⟨choices, log, state⟩ := s.exists_state_putOff alternative
  rw [state]

/-- Going back leaves the number of slots as it is. -/
lemma size_backtrack : s.backtrack.state.marks.slots.size = s.marks.slots.size := by
  rw [backtrack, ChoiceStack.pop]
  cases s.choices.points.back? with
  | none => rfl
  | some c => exact MarkStack.size_restore

/-- No move takes a slot away. -/
lemma size_perform (move : Move) : s.marks.slots.size ≤ (s.perform move).state.marks.slots.size := by
  refine perform_keeps (I := fun t => s.marks.slots.size ≤ t.marks.slots.size) (Nat.le_refl _) ?_ ?_ ?_ ?_ move
  · exact fun t use le => Nat.le_trans le (t.size_useMarks use)
  · exact fun t next le => le
  · intro t alternative le
    rw [marks_putOff]
    exact le
  · intro t le
    rw [size_backtrack]
    exact le

end State

namespace Search

variable {search : Search} {s t : State} {budget : Nat} {r : Verdict × State}

/-- What a store needs does not become less by a step. -/
lemma need_step (store : Store) (s : State) : s.need store ≤ (search.step s).state.need store := by
  cases store with
  | choices => exact (search.atMost_step s).peak
  | marks =>
    refine search.stepBy_keeps (I := fun t => s.marks.slots.size ≤ t.marks.slots.size) (fun log => Nat.le_refl _)
      fun t move le => ?_
    exact Nat.le_trans le (t.size_perform move)

/-- What a store needs does not become less during a run. -/
lemma need_run (run : search.run budget s = some r) (store : Store) : s.need store ≤ r.2.need store :=
  run_keeps (I := fun t => s.need store ≤ t.need store) run (fun t le => Nat.le_trans le (need_step store t))
    (Nat.le_refl _)

end Search

/-! ## A whole life -/

section

variable {c : Config} {m : Matcher} {budget : Nat} {p : Program} {text : Text} {o : Outcome} {store : Store}
variable {outcomes : List Outcome} {high : Store → Nat} {lines : Store → List Nat}

/-- One more outcome counts if the program was run. -/
lemma greatestNeed_concat :
    greatestNeed store (outcomes ++ [o]) =
      if o.isGeneral then max (greatestNeed store outcomes) (o.need store) else greatestNeed store outcomes := by
  rw [greatestNeed, List.filter_append]
  cases general : o.isGeneral with
  | true =>
    rw [List.filter_cons_of_pos general, List.map_append, List.foldl_append]
    rfl
  | false =>
    rw [List.filter_cons_of_neg (Bool.eq_false_iff.mp general), List.filter_nil, List.append_nil]
    rfl

/-- A match enlarges the stores as far as it needs, and not at all if it does not run its program. -/
lemma stocked_of_test (test : m.test budget p text = some o)
    (h : ∀ store, Stocked (high store) (m.capacity store) (lines store)) (store : Store) :
    Stocked (if o.isGeneral then max (high store) (o.need store) else high store) (o.matcher.capacity store)
      (lines store ++ o.log.growths store) := by
  rw [Matcher.test] at test
  split at test
  · cases test
    show Stocked (high store) _ (lines store ++ [])
    rw [List.append_nil]
    cases store with
    | choices => exact h .choices
    | marks => exact h .marks
  · obtain ⟨⟨verdict, t⟩, run, rfl⟩ := Option.map_eq_some_iff.mp test
    have supplied := Search.supplied_run run (.start h) (Nat.le_refl _)
    have quiet : Log.growths (t.log.push (.ofVerdict t verdict)) store = t.log.growths store := by
      rw [Log.growths_push]
      cases verdict with
      | ok found => exact List.append_nil _
      | error fault => exact List.append_nil _
    show Stocked (max (high store) _) _ (lines store ++ Log.growths (t.log.push (.ofVerdict t verdict)) store)
    rw [quiet]
    cases store with
    | choices => exact supplied .choices
    | marks => exact supplied .marks

/-- In all that a matcher has gone through, its capacity and its reports follow from the greatest need. -/
lemma stocked_of_life (life : Matcher.Life c m outcomes) (store : Store) :
    Stocked (greatestNeed store outcomes) (m.capacity store) (outcomes.flatMap (·.log.growths store)) := by
  induction life generalizing store with
  | new =>
    cases store with
    | choices => exact ⟨rfl, rfl⟩
    | marks => exact ⟨rfl, rfl⟩
  | test _ test ih =>
    rw [greatestNeed_concat, List.flatMap_append, List.flatMap_singleton]
    exact stocked_of_test test ih store

/-- Matches one after another go on with the life of a matcher. -/
lemma life_of_testAll {tests : List (Program × Text)} {later : List Outcome} (life : Matcher.Life c m outcomes)
    (all : m.testAll budget tests = some later) : ∃ m', Matcher.Life c m' (outcomes ++ later) := by
  induction tests generalizing m outcomes later with
  | nil =>
    cases all
    exact ⟨m, (List.append_nil outcomes).symm ▸ life⟩
  | cons first rest ih =>
    rw [Matcher.testAll, Option.bind_eq_bind, Option.bind_eq_some_iff] at all
    obtain ⟨o, test, all⟩ := all
    obtain ⟨others, rest_all, eq⟩ := Option.bind_eq_some_iff.mp all
    cases eq
    obtain ⟨m', life'⟩ := ih (life.test test) rest_all
    rw [List.append_assoc] at life'
    exact ⟨m', life'⟩

/-- A match that runs its program needs slots for the bottom and the head, and no state on its way needs more entries
than the match has needed in the end. -/
lemma need_of_test (general : m.fastPath? p = none) (test : m.test budget p text = some o) :
    2 ≤ o.need .marks ∧ ∀ s, m.Reaches p text s → ∀ store, s.need store ≤ o.need store := by
  rw [Matcher.test, general] at test
  obtain ⟨⟨verdict, t⟩, run, rfl⟩ := Option.map_eq_some_iff.mp test
  refine ⟨Search.need_run run .marks, fun s reaches store => ?_⟩
  obtain ⟨budget', run'⟩ := reaches.run run
  have le := Search.need_run run' store
  cases store with
  | choices => exact le
  | marks => exact le

/-- An outcome is that of a run exactly if there is no fast path. -/
lemma isGeneral_of_test (test : m.test budget p text = some o) : o.isGeneral ↔ m.fastPath? p = none := by
  rw [Matcher.test] at test
  split at test
  · rename_i bytes fast
    cases test
    rw [fast]
    exact iff_of_false Bool.false_ne_true (Option.some_ne_none bytes)
  · rename_i general
    obtain ⟨⟨verdict, t⟩, run, rfl⟩ := Option.map_eq_some_iff.mp test
    exact ⟨fun _ => general, fun _ => rfl⟩

/-- Every run needs two slots for saved positions. -/
lemma two_le_greatestNeed (life : Matcher.Life c m outcomes) (mem : o ∈ outcomes) (general : o.isGeneral) :
    2 ≤ greatestNeed .marks outcomes := by
  induction life with
  | new => cases mem
  | @test m outcomes budget p text last _ test ih =>
    rw [greatestNeed_concat]
    obtain mem | mem := List.mem_append.mp mem
    · have before := ih mem
      split
      · exact Nat.le_trans before (Nat.le_max_left ..)
      · exact before
    · obtain rfl := List.mem_singleton.mp mem
      obtain ⟨two, _⟩ := need_of_test ((isGeneral_of_test test).mp general) test
      rw [if_pos general]
      exact Nat.le_trans two (Nat.le_max_right ..)

/-- Over all matches of a matcher, in whatever way they have ended, each store is reported to grow to each multiple of
16 once and in order, up to the room for the greatest number of entries that a match which has run its program has
needed. For the saved positions these are two at least. Such a match has needed no more entries on its way than in
the end. -/
theorem growths_of_life (life : Matcher.Life c m outcomes) :
    (∀ store,
      outcomes.flatMap (·.log.growths store) =
        (List.range ((greatestNeed store outcomes + 15) / 16)).map (fun i => 16 * (i + 1)) ∧
      (outcomes.flatMap (·.log.growths store)).Pairwise (· < ·)) ∧
    (∀ o ∈ outcomes, o.isGeneral → 2 ≤ greatestNeed .marks outcomes) ∧
    ∀ budget p text o, m.test budget p text = some o →
      (o.isGeneral ↔ m.fastPath? p = none) ∧
        (o.isGeneral → ∀ s, m.Reaches p text s → ∀ store, s.need store ≤ o.need store) := by
  refine ⟨fun store => ?_, fun o mem general => two_le_greatestNeed life mem general,
    fun budget p text o test => ⟨isGeneral_of_test test, fun general => ?_⟩⟩
  · have lines := (stocked_of_life life store).lines
    exact ⟨lines, lines ▸ enlargements_lt _⟩
  · exact (need_of_test ((isGeneral_of_test test).mp general) test).2

/-- A repetition over three bytes, a search for a literal, and the repetition over seventeen bytes, of which each puts
off a choice point. -/
theorem growths_of_life_longer :
    let m := Matcher.ofConfig ⟨0, .none⟩
    let p : Program :=
      ⟨#[.textStart false, .savePos, .anyByte false, .jumpIfAdvanced (-2), .textEnd, .accept], #[]⟩
    let q : Program := ⟨#[.literal [97] false, .accept], #[]⟩
    ∃ outcomes, m.testAll 60 [(p, .replicate 3 97), (q, .replicate 3 97), (p, .replicate 17 97)] = some outcomes ∧
      outcomes.flatMap (·.log.growths .choices) = [16, 32] ∧
      outcomes.flatMap (·.log.growths .marks) = [16] := by
  intro m p q
  have needs : (m.testAll 60 [(p, .replicate 3 97), (q, .replicate 3 97), (p, .replicate 17 97)]).map
      (fun outcomes => (greatestNeed .choices outcomes, greatestNeed .marks outcomes)) = some (17, 3) := by
    decide +kernel
  obtain ⟨outcomes, tests, needs⟩ := Option.map_eq_some_iff.mp needs
  obtain ⟨choices, marks⟩ := Prod.mk.inj needs
  obtain ⟨_, life⟩ := life_of_testAll .new tests
  rw [List.nil_append] at life
  obtain ⟨growths, _⟩ := growths_of_life life
  obtain ⟨of_choices, _⟩ := growths .choices
  obtain ⟨of_marks, _⟩ := growths .marks
  rw [choices] at of_choices
  rw [marks] at of_marks
  exact ⟨outcomes, tests, of_choices, of_marks⟩

end

end PatternVM
