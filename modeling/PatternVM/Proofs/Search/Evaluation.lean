import PatternVM.Proofs.Search.Alternatives

/-!
# Evaluation

A recursive reading of programs. `Program.evaluate` passes the saved positions on as an immutable list, asks
the alternatives of a place one after another, and takes the first verdict other than a failure. Its fuel
bounds the depth of the recursion only.

`Matcher.test_iff_evaluate` says that a matcher comes to the verdicts of this evaluation and to no others.
Between them stands `Program.Yields`, which forgets the fuel. An exploration that ends yields the verdict of
its agenda. Conversely, a place that yields a verdict is worked off under every agenda behind it: `Resolves`
is this statement for a block of places, so that the induction on the fuel goes through.
-/

namespace PatternVM

/-- The first verdict other than a failure. What stands behind it does not matter, even if it is missing. -/
def firstVerdict : List (Option Verdict) → Option Verdict
  | [] => some (.ok false)
  | some (.ok false) :: rest => firstVerdict rest
  | outcome :: _ => outcome

/-- An answer other than a failure is the first verdict. -/
lemma firstVerdict_cons_of_ne {own : Verdict} {rest : List (Option Verdict)} (ne : own ≠ .ok false) :
    firstVerdict (some own :: rest) = some own := by
  match own with
  | .ok true => rfl
  | .ok false => exact absurd rfl ne
  | .error _ => rfl

/-- The first verdict is that of the first outcome, or that of the others if the first one is a failure. -/
lemma firstVerdict_cons {outcome : Option Verdict} {rest : List (Option Verdict)} {verdict : Verdict} :
    firstVerdict (outcome :: rest) = some verdict ↔
      outcome = some (.ok false) ∧ firstVerdict rest = some verdict ∨
        outcome = some verdict ∧ verdict ≠ .ok false := by
  cases outcome with
  | none => simp [firstVerdict]
  | some own =>
    by_cases fails : own = .ok false
    · rw [fails, firstVerdict]
      constructor
      · exact fun others => .inl ⟨rfl, others⟩
      · rintro (⟨_, others⟩ | ⟨eq, ne⟩)
        · exact others
        · exact absurd (Option.some.inj eq).symm ne
    · rw [firstVerdict_cons_of_ne fails]
      constructor
      · intro eq
        exact .inr ⟨eq, Option.some.inj eq ▸ fails⟩
      · rintro (⟨eq, _⟩ | ⟨eq, _⟩)
        · exact absurd (Option.some.inj eq) fails
        · exact eq

/-- A first verdict other than a failure is among the outcomes. -/
lemma mem_of_firstVerdict {outcomes : List (Option Verdict)} {verdict : Verdict}
    (h : firstVerdict outcomes = some verdict) (ne : verdict ≠ .ok false) : some verdict ∈ outcomes := by
  induction outcomes with
  | nil =>
    cases h
    exact absurd rfl ne
  | cons outcome rest ih =>
    obtain ⟨_, others⟩ | ⟨rfl, _⟩ := firstVerdict_cons.mp h
    · exact List.mem_cons_of_mem _ (ih others)
    · exact List.mem_cons_self

/-- If the first verdict is a failure, all outcomes are failures. -/
lemma eq_of_firstVerdict {outcomes : List (Option Verdict)} (h : firstVerdict outcomes = some (.ok false))
    {outcome : Option Verdict} (mem : outcome ∈ outcomes) : outcome = some (.ok false) := by
  induction outcomes with
  | nil => cases mem
  | cons head rest ih =>
    obtain ⟨fails, others⟩ | ⟨_, ne⟩ := firstVerdict_cons.mp h
    · cases mem with
      | head => exact fails
      | tail _ mem => exact ih others mem
    · exact absurd rfl ne

/-- A move that settles the search settles it with an accept or with a fault. -/
lemma Move.ne_failure_of_visit {move : Move} {c : Place} {verdict : Verdict}
    (h : move.visit c = .settled verdict) : verdict ≠ .ok false := by
  cases move with
  | fail => cases h
  | accept use =>
    cases h
    intro eq
    cases eq
  | corrupt use defect =>
    cases h
    intro eq
    cases eq
  | goto use next => cases h
  | fork use next alternative => cases h

/-- A visit does not settle the search with a failure, however threads move. -/
lemma Program.ne_failure_of_visitBy {moves : Moves} {p : Program} {text : Text} {c : Place} {verdict : Verdict}
    (h : p.visitBy moves text c = .settled verdict) : verdict ≠ .ok false := by
  rw [visitBy] at h
  cases at_pc : p.instr? c.thread.pc with
  | none =>
    rw [at_pc] at h
    cases h
    intro eq
    cases eq
  | some instr =>
    rw [at_pc] at h
    exact Move.ne_failure_of_visit h

namespace Program

/-- The verdict that a place leads to: its own, or the first verdict of its alternatives in their order of
preference other than a failure. Yields nothing if the recursion would go deeper than `fuel`. -/
def evaluate (p : Program) (text : Text) : Nat → Place → Option Verdict
  | 0, _ => none
  | fuel + 1, c =>
    match p.alternatives text c with
    | .settled verdict => some verdict
    | .opened places => firstVerdict (places.map (p.evaluate text fuel))

/-- Some fuel suffices to find the verdict of a place. -/
def Yields (p : Program) (text : Text) (c : Place) (verdict : Verdict) : Prop :=
  ∃ fuel, p.evaluate text fuel c = some verdict

/-- Some fuel suffices to find the first verdict of some places other than a failure. -/
def YieldsFirst (p : Program) (text : Text) (places : List Place) (verdict : Verdict) : Prop :=
  ∃ fuel, firstVerdict (places.map (p.evaluate text fuel)) = some verdict

/-- Some budget suffices to work an agenda off. -/
def Explores (p : Program) (text : Text) (agenda : List Place) (verdict : Verdict) : Prop :=
  ∃ budget, p.explore text budget agenda = some verdict

/-- Whatever stands behind them on the agenda, the places are worked off with their own verdict, or if they
fail, with that of the rest. -/
structure Resolves (p : Program) (text : Text) (places : List Place) (verdict : Verdict) : Prop where
  decided : verdict ≠ .ok false → ∀ rest, p.Explores text (places ++ rest) verdict
  failed : verdict = .ok false → ∀ rest later, p.Explores text rest later →
    p.Explores text (places ++ rest) later

variable {p : Program} {text : Text} {c : Place} {places rest agenda : List Place} {verdict : Verdict}
variable {fuel fuel' : Nat}

/-! ## Fuel -/

/-- A place that gives a verdict at once evaluates to it. -/
lemma evaluate_of_settled (h : p.alternatives text c = .settled verdict) (fuel : Nat) :
    p.evaluate text (fuel + 1) c = some verdict := by
  rw [evaluate, h]

/-- A place with alternatives evaluates to the first verdict of theirs. -/
lemma evaluate_of_opened (h : p.alternatives text c = .opened places) (fuel : Nat) :
    p.evaluate text (fuel + 1) c = firstVerdict (places.map (p.evaluate text fuel)) := by
  rw [evaluate, h]

/-- A first verdict stays if more outcomes become known. -/
lemma firstVerdict_mono {f g : Place → Option Verdict}
    (grows : ∀ c verdict, f c = some verdict → g c = some verdict)
    (h : firstVerdict (places.map f) = some verdict) : firstVerdict (places.map g) = some verdict := by
  induction places with
  | nil => exact h
  | cons c rest ih =>
    rw [List.map_cons, firstVerdict_cons] at h ⊢
    obtain ⟨fails, others⟩ | ⟨decides, ne⟩ := h
    · exact .inl ⟨grows c _ fails, ih others⟩
    · exact .inr ⟨grows c _ decides, ne⟩

/-- One more unit of fuel changes no verdict. -/
lemma evaluate_succ (h : p.evaluate text fuel c = some verdict) :
    p.evaluate text (fuel + 1) c = some verdict := by
  induction fuel generalizing c verdict with
  | zero => cases h
  | succ fuel ih =>
    cases alternatives : p.alternatives text c with
    | settled own =>
      rw [evaluate_of_settled alternatives] at h ⊢
      exact h
    | opened places =>
      rw [evaluate_of_opened alternatives] at h ⊢
      exact firstVerdict_mono (fun _ _ => ih) h

/-- More fuel changes no verdict. -/
lemma evaluate_mono (h : p.evaluate text fuel c = some verdict) (le : fuel ≤ fuel') :
    p.evaluate text fuel' c = some verdict := by
  induction le with
  | refl => exact h
  | step _ ih => exact evaluate_succ ih

/-! ## What places yield -/

/-- A place that gives a verdict at once yields that one. -/
lemma yields_of_settled {own : Verdict} (h : p.alternatives text c = .settled own) :
    p.Yields text c verdict ↔ own = verdict := by
  constructor
  · rintro ⟨fuel, evaluated⟩
    cases fuel with
    | zero => cases evaluated
    | succ fuel =>
      rw [evaluate_of_settled h, Option.some.injEq] at evaluated
      exact evaluated
  · rintro rfl
    exact ⟨1, evaluate_of_settled h 0⟩

/-- A place with alternatives yields the first verdict of theirs. -/
lemma yields_of_opened (h : p.alternatives text c = .opened places) :
    p.Yields text c verdict ↔ p.YieldsFirst text places verdict := by
  constructor
  · rintro ⟨fuel, evaluated⟩
    cases fuel with
    | zero => cases evaluated
    | succ fuel =>
      rw [evaluate_of_opened h] at evaluated
      exact ⟨fuel, evaluated⟩
  · rintro ⟨fuel, evaluated⟩
    exact ⟨fuel + 1, (evaluate_of_opened h fuel).trans evaluated⟩

/-- Without any place there is a failure. -/
lemma yieldsFirst_nil : p.YieldsFirst text [] verdict ↔ verdict = .ok false := by
  constructor
  · rintro ⟨_, h⟩
    cases h
    rfl
  · rintro rfl
    exact ⟨0, rfl⟩

/-- The first verdict of some places is that of the first one, or that of the others if the first one fails. -/
lemma yieldsFirst_cons : p.YieldsFirst text (c :: rest) verdict ↔
    p.Yields text c (.ok false) ∧ p.YieldsFirst text rest verdict ∨
      p.Yields text c verdict ∧ verdict ≠ .ok false := by
  constructor
  · rintro ⟨fuel, h⟩
    rw [List.map_cons, firstVerdict_cons] at h
    obtain ⟨fails, others⟩ | ⟨decides, ne⟩ := h
    · exact .inl ⟨⟨fuel, fails⟩, ⟨fuel, others⟩⟩
    · exact .inr ⟨⟨fuel, decides⟩, ne⟩
  · rintro (⟨⟨fuel, fails⟩, ⟨fuel', others⟩⟩ | ⟨⟨fuel, decides⟩, ne⟩)
    · refine ⟨max fuel fuel', ?_⟩
      rw [List.map_cons, firstVerdict_cons]
      refine .inl ⟨evaluate_mono fails (Nat.le_max_left ..), ?_⟩
      exact firstVerdict_mono (fun _ _ found => evaluate_mono found (Nat.le_max_right ..)) others
    · refine ⟨fuel, ?_⟩
      rw [List.map_cons, firstVerdict_cons]
      exact .inr ⟨decides, ne⟩

/-- The first verdict of places one behind the other is that of the former, or that of the latter if the former fail. -/
lemma yieldsFirst_append : p.YieldsFirst text (places ++ rest) verdict ↔
    p.YieldsFirst text places (.ok false) ∧ p.YieldsFirst text rest verdict ∨
      p.YieldsFirst text places verdict ∧ verdict ≠ .ok false := by
  induction places with
  | nil => simp [yieldsFirst_nil]
  | cons c places ih =>
    rw [List.cons_append, yieldsFirst_cons, yieldsFirst_cons, yieldsFirst_cons, ih]
    tauto

/-! ## From explorations to evaluations -/

/-- A visit gives a verdict exactly if the place has that one instead of alternatives. -/
lemma visit_settled_iff : p.visit text c = .settled verdict ↔ p.alternatives text c = .settled verdict := by
  obtain same | ⟨first, rest, retry, opened, alternatives, _⟩ := p.visit_cases text c
  · rw [same]
  · rw [opened, alternatives]
    constructor
    · intro eq
      cases eq
    · intro eq
      cases eq

/-- No place gives a failure at once. -/
lemma ne_failure_of_settled (h : p.alternatives text c = .settled verdict) : verdict ≠ .ok false := by
  rw [← visit_settled_iff] at h
  exact ne_failure_of_visitBy h

/-- A place yields the first verdict of the places that a visit opens. -/
lemma yields_of_visit_opened (h : p.visit text c = .opened places) :
    p.Yields text c verdict ↔ p.YieldsFirst text places verdict := by
  obtain same | ⟨first, rest, retry, visit, alternatives, others⟩ := p.visit_cases text c
  · exact yields_of_opened (same.symm.trans h)
  · obtain rfl : [first, retry] = places := by
      rw [visit] at h
      cases h
      rfl
    rw [yields_of_opened alternatives, yieldsFirst_cons, yieldsFirst_cons, yieldsFirst_cons,
      yieldsFirst_nil, yields_of_opened others, yields_of_opened others]
    constructor
    · rintro (⟨fails, tail⟩ | decides)
      · by_cases e : verdict = .ok false
        · exact .inl ⟨fails, .inl ⟨e ▸ tail, e⟩⟩
        · exact .inl ⟨fails, .inr ⟨tail, e⟩⟩
      · exact .inr decides
    · rintro (⟨fails, ⟨tail, rfl⟩ | ⟨tail, _⟩⟩ | decides)
      · exact .inl ⟨fails, tail⟩
      · exact .inl ⟨fails, tail⟩
      · exact .inr decides

/-- An exploration that ends yields the first verdict of its agenda. -/
lemma Explores.yieldsFirst (h : p.Explores text agenda verdict) : p.YieldsFirst text agenda verdict := by
  obtain ⟨budget, h⟩ := h
  fun_induction p.explore text budget agenda with
  | case1 =>
    cases h
    exact yieldsFirst_nil.mpr rfl
  | case2 => cases h
  | case3 budget c rest own visit =>
    cases h
    have alternatives := visit_settled_iff.mp visit
    refine yieldsFirst_cons.mpr (.inr ⟨(yields_of_settled alternatives).mpr rfl, ?_⟩)
    exact ne_failure_of_settled alternatives
  | case4 budget c rest places visit ih =>
    -- what the agenda yields does not change when a place makes room for those that its visit opens
    have yields := ih h
    rw [yieldsFirst_append] at yields
    rw [yieldsFirst_cons, yields_of_visit_opened visit, yields_of_visit_opened visit]
    exact yields

/-! ## From evaluations to explorations -/

/-- A place that gives a verdict at once resolves with it. -/
lemma resolves_of_settled (h : p.alternatives text c = .settled verdict) : p.Resolves text [c] verdict where
  decided _ _ := ⟨1, explore_of_settled (visit_settled_iff.mpr h) 0⟩
  failed eq := absurd eq (ne_failure_of_settled h)

/-- A place resolves as the places do that a visit opens. -/
lemma resolves_of_opened (h : p.visit text c = .opened places) (resolves : p.Resolves text places verdict) :
    p.Resolves text [c] verdict where
  decided ne rest := by
    obtain ⟨budget, explored⟩ := resolves.decided ne rest
    exact ⟨budget + 1, (explore_of_opened h budget).trans explored⟩
  failed eq rest later ends := by
    obtain ⟨budget, explored⟩ := resolves.failed eq rest later ends
    exact ⟨budget + 1, (explore_of_opened h budget).trans explored⟩

/-- Nothing at all resolves with a failure. -/
lemma resolves_nil : p.Resolves text [] (.ok false) where
  decided ne := absurd rfl ne
  failed _ _ _ ends := ends

/-- Behind a place that fails, the others decide. -/
lemma Resolves.cons_of_failed (head : p.Resolves text [c] (.ok false))
    (others : p.Resolves text rest verdict) : p.Resolves text (c :: rest) verdict where
  decided ne behind := head.failed rfl (rest ++ behind) verdict (others.decided ne behind)
  failed eq behind later ends := head.failed rfl (rest ++ behind) later (others.failed eq behind later ends)

/-- A place that does not fail decides, whatever stands behind it. -/
lemma Resolves.cons_of_decided (head : p.Resolves text [c] verdict) (ne : verdict ≠ .ok false)
    (rest : List Place) : p.Resolves text (c :: rest) verdict where
  decided _ behind := head.decided ne (rest ++ behind)
  failed eq := absurd eq ne

/-- Places resolve with what they yield first if each of them does. -/
lemma resolves_of_firstVerdict
    (each : ∀ c verdict, p.evaluate text fuel c = some verdict → p.Resolves text [c] verdict)
    (h : firstVerdict (places.map (p.evaluate text fuel)) = some verdict) :
    p.Resolves text places verdict := by
  induction places with
  | nil =>
    cases h
    exact resolves_nil
  | cons c rest ih =>
    rw [List.map_cons, firstVerdict_cons] at h
    obtain ⟨fails, others⟩ | ⟨decides, ne⟩ := h
    · exact (each c _ fails).cons_of_failed (ih others)
    · exact (each c _ decides).cons_of_decided ne rest

/-- A place resolves with what its alternatives yield first if each of them resolves. -/
lemma resolves_of_alternatives
    (each : ∀ c verdict, p.evaluate text fuel c = some verdict → p.Resolves text [c] verdict)
    (alternatives : p.alternatives text c = .opened places)
    (h : firstVerdict (places.map (p.evaluate text fuel)) = some verdict) :
    p.Resolves text [c] verdict := by
  -- a retry needs as much fuel as the place itself, so the induction is on the alternatives
  induction places generalizing c with
  | nil =>
    obtain same | ⟨first, rest, retry, _, absurd, _⟩ := p.visit_cases text c
    · exact resolves_of_opened (same.trans alternatives) (resolves_of_firstVerdict each h)
    · rw [alternatives] at absurd
      cases absurd
  | cons first rest ih =>
    obtain same | ⟨first', rest', retry, visit, alternatives', others⟩ := p.visit_cases text c
    · exact resolves_of_opened (same.trans alternatives) (resolves_of_firstVerdict each h)
    · rw [alternatives] at alternatives'
      cases alternatives'
      -- the visit has opened the first alternative and a retry, which resolves by induction
      refine resolves_of_opened visit ?_
      rw [List.map_cons, firstVerdict_cons] at h
      obtain ⟨fails, tail⟩ | ⟨decides, ne⟩ := h
      · exact (each first _ fails).cons_of_failed (ih others tail)
      · exact (each first _ decides).cons_of_decided ne [retry]

/-- A place resolves with the verdict that it evaluates to. -/
lemma resolves_of_evaluate (h : p.evaluate text fuel c = some verdict) : p.Resolves text [c] verdict := by
  induction fuel generalizing c verdict with
  | zero => cases h
  | succ fuel ih =>
    cases alternatives : p.alternatives text c with
    | settled own =>
      rw [evaluate_of_settled alternatives, Option.some.injEq] at h
      exact resolves_of_settled (h ▸ alternatives)
    | opened places =>
      rw [evaluate_of_opened alternatives] at h
      exact resolves_of_alternatives (fun _ _ => ih) alternatives h

/-- A search from a place ends exactly if the place yields a verdict, and with that verdict. -/
theorem explores_iff_yields : p.Explores text [c] verdict ↔ p.Yields text c verdict := by
  constructor
  · intro h
    obtain ⟨fails, none⟩ | ⟨decides, _⟩ := yieldsFirst_cons.mp h.yieldsFirst
    · rw [yieldsFirst_nil.mp none]
      exact fails
    · exact decides
  · rintro ⟨fuel, evaluated⟩
    have resolves := resolves_of_evaluate evaluated
    by_cases fails : verdict = .ok false
    · exact resolves.failed fails [] verdict ⟨0, fails ▸ explore_nil 0⟩
    · exact resolves.decided fails []

/-! ## The fast path -/

variable {bytes : List UInt8}

/-- A program that only asks for a literal begins with it and accepts behind it. -/
lemma soleLiteral?_eq_some (h : p.soleLiteral? = some bytes) :
    p.instr? 0 = some (.literal bytes false) ∧ p.instr? 1 = some .accept := by
  rw [soleLiteral?] at h
  split at h
  · rename_i first second
    cases h
    exact ⟨first, second⟩
  · cases h

/-- Such a program matches where the literal is found. -/
lemma yields_of_soleLiteral (h : p.soleLiteral? = some bytes) (text : Text) :
    p.Yields text .start (.ok (text.find? bytes 0).isSome) := by
  obtain ⟨first, second⟩ := soleLiteral?_eq_some h
  rw [yields_of_opened (alternatives_of_consumes (c := .start) first .literal), Place.start, Thread.start]
  rw [show text.find? bytes 0 = (Token.literal bytes).find? text 0 from rfl]
  cases found : (Token.literal bytes).find? text 0 with
  | none =>
    rw [Token.starts_of_find?_eq_none found]
    exact yieldsFirst_nil.mpr rfl
  | some q =>
    -- the first place behind the literal accepts, so the others are not asked
    rw [Token.starts_of_find?_eq_some found, List.map_cons, yieldsFirst_cons]
    exact .inr ⟨(yields_of_settled (alternatives_of_accept second)).mpr rfl, nofun⟩

end Program

namespace Matcher

variable {m : Matcher}

/-- Without the fast path a match is a run. -/
lemma test_of_noFastPath (h : m.options.has .noFastPath) (budget : Nat) (p : Program) (text : Text) :
    m.test budget p text = m.run budget p text := by
  rw [test, fastPath?, if_pos h]

/-- The verdict of a match is what its program yields, unless the limit refuses a choice point. -/
lemma yields_of_test {budget : Nat} {p : Program} {text : Text} {o : Outcome}
    (test : m.test budget p text = some o) :
    p.Yields text .start o.verdict ∨ m.limit ≠ 0 ∧ o.verdict = .error .choiceLimit := by
  rw [Matcher.test] at test
  split at test
  · rename_i bytes fast
    rw [fastPath?] at fast
    split at fast
    · cases fast
    · cases test
      exact .inl (Program.yields_of_soleLiteral fast text)
  · have run := m.run_verdict budget p text
    rw [test, Option.map_some, Option.some.injEq] at run
    obtain explored | refused := run
    · exact .inl (Program.explores_iff_yields.mp ⟨budget, explored.symm⟩)
    · exact .inr refused

/-- Without a limit and a fast path, a match comes to a verdict exactly if the evaluation does, and to the
same one. -/
theorem test_iff_evaluate (m : Matcher) (unlimited : m.limit = 0) (slow : m.options.has .noFastPath)
    (p : Program) (text : Text) (verdict : Verdict) :
    (∃ budget o, m.test budget p text = some o ∧ o.verdict = verdict) ↔
      ∃ fuel, p.evaluate text fuel .start = some verdict := by
  have explored (budget : Nat) :
      (m.test budget p text).map Outcome.verdict = p.explore text budget [.start] := by
    rw [test_of_noFastPath slow]
    exact (m.run_verdict budget p text).resolve_right fun ⟨limited, _⟩ => limited unlimited
  constructor
  · rintro ⟨budget, o, test, rfl⟩
    refine Program.explores_iff_yields.mp ⟨budget, ?_⟩
    rw [← explored, test, Option.map_some]
  · intro yields
    obtain ⟨budget, ends⟩ := Program.explores_iff_yields.mpr yields
    rw [← explored, Option.map_eq_some_iff] at ends
    obtain ⟨o, test, eq⟩ := ends
    exact ⟨budget, o, test, eq⟩

/-- A branch whose second way is corrupt. The text is found to match on the first way. -/
theorem test_iff_evaluate_branch :
    let m := Matcher.ofConfig ⟨0, .noFastPath⟩
    let p : Program := ⟨#[.branchFirst 3, .literal [97] false, .accept, .jump 100], #[]⟩
    m.limit = 0 ∧ m.options.has .noFastPath ∧
      (∃ budget o, m.test budget p #[98, 97] = some o ∧ o.verdict = .ok true) ∧
        ∃ budget o, m.test budget p #[98] = some o ∧
          o.verdict = .error (.corrupt 3 (.jumpOutOfRange 103 4)) := by
  intro m p
  have unlimited : m.limit = 0 := rfl
  have slow : m.options.has .noFastPath := by decide
  refine ⟨unlimited, slow, ?_, ?_⟩
  · exact (test_iff_evaluate m unlimited slow p #[98, 97] (.ok true)).mpr ⟨3, rfl⟩
  · exact (test_iff_evaluate m unlimited slow p #[98] _).mpr ⟨3, rfl⟩

end Matcher

end PatternVM
