import PatternVM.Proofs.Session.Sites

/-!
# Provenance

Configurations are fixed when things are made. Whatever is found at a site of a session goes back, over the
commands that have been carried out, to an `Origin`: the limit that was in force when it was begun, or when that was
begun which it has been made from, and the settings made explicitly. Its configuration is that of its origin, for as
long as it lasts (`Session.config_of_stems`).

A matcher that a pool lends therefore has the configuration of the template, unless a client has put another one in
the place of a matcher on loan. That is an invariant of the pool and its loans (`Session.Faithful`).
-/

namespace PatternVM

/-- The limit that a setting asks for. -/
def Setting.limit? : Setting → Option Nat
  | .limit n => some n
  | _ => none

/-- How a configuration came about: the limit that was in force, and the settings made since. -/
structure Origin where
  limit : Nat
  changes : List Setting

namespace Origin

/-- The configuration that has come about. -/
def config (o : Origin) : Config := (Config.ofLimit o.limit).applyAll o.changes

/-- The limit that was last asked for explicitly. -/
def explicitLimit? (o : Origin) : Option Nat := o.changes.reverse.findSome? Setting.limit?

end Origin

namespace Session

/-- Sessions that come about by commands. -/
inductive Reached : Session → Prop where
  | empty :
    Reached .empty
  | exec {s s' budget command reply log} :
    Reached s →
    s.exec budget command = .ok (reply, log, s') →
    Reached s'

/-- The thing at a site goes back to an origin. -/
inductive Stems : Session → Site → Origin → Prop where
  | made {s s' site changes budget command reply log} :
    Reached s →
    s.exec budget command = .ok (reply, log, s') →
    s.source command site = .made changes →
    Stems s' site ⟨s.limit, changes⟩
  | passed {s s' site before limit earlier changes budget command reply log} :
    Stems s before ⟨limit, earlier⟩ →
    s.exec budget command = .ok (reply, log, s') →
    s.source command site = .site before changes →
    Stems s' site ⟨limit, earlier ++ changes⟩

/-- A command puts another matcher in the place of one that is on loan from pool number `n`. -/
def Overwrites (s : Session) (n : Nat) : Command → Prop
  | .recreate name _ => ∃ m, s.holdings.find? name = some ⟨m, some n⟩
  | _ => False

/-- Sessions that come about by commands, none of which puts another matcher in the place of one that is on loan
from pool number `n`. -/
inductive Undisturbed (n : Nat) : Session → Prop where
  | empty :
    Undisturbed n .empty
  | exec {s s' budget command reply log} :
    Undisturbed n s →
    s.exec budget command = .ok (reply, log, s') →
    ¬ s.Overwrites n command →
    Undisturbed n s'

end Session

/-! ## Origins -/

/-- The limit after some settings is the last one that they ask for, or else the one before. -/
lemma Config.limit_applyAll (c : Config) (changes : List Setting) :
    (c.applyAll changes).limit = (changes.reverse.findSome? Setting.limit?).getD c.limit := by
  induction changes generalizing c with
  | nil => rfl
  | cons first later ih =>
    rw [applyAll, List.foldl_cons, List.reverse_cons, List.findSome?_append]
    refine (ih (c.apply first)).trans ?_
    cases later.reverse.findSome? Setting.limit? with
    | some n => rfl
    | none =>
      cases first with
      | limit n => rfl
      | _ => rfl

namespace Session

variable {s s' : Session} {site : Site} {origin : Origin} {n : Nat} {p p' : Pool} {name : String} {h : Holding}

/-- Commands have led to such a session. -/
lemma Undisturbed.reached (undisturbed : s.Undisturbed n) : s.Reached := by
  induction undisturbed with
  | empty => exact .empty
  | exec _ exec _ ih => exact ih.exec exec

/-- Whatever has a configuration stems from somewhere. -/
lemma Reached.stems (reached : s.Reached) {c : Config} (found : s.configAt? site = some c) :
    ∃ origin, s.Stems site origin := by
  induction reached generalizing site c with
  | empty => cases site <;> cases found
  | @exec s s' budget command reply log reached exec ih =>
    rw [configAt?_of_effect (effect_of_exec exec)] at found
    cases source : s.source command site with
    | made changes => exact ⟨_, .made reached exec source⟩
    | site before changes =>
      rw [source, configFrom?, Option.map_eq_some_iff] at found
      obtain ⟨_, found, _⟩ := found
      obtain ⟨⟨limit, earlier⟩, stems⟩ := ih found
      exact ⟨_, .passed stems exec source⟩
    | nothing =>
      rw [source] at found
      cases found

/-- Whatever stems from an origin has the configuration that came about there. -/
lemma Stems.configAt?_eq (stems : s.Stems site origin) : s.configAt? site = some origin.config := by
  induction stems with
  | made _ exec source =>
    rw [configAt?_of_effect (effect_of_exec exec), source]
    rfl
  | passed _ exec source ih =>
    rw [configAt?_of_effect (effect_of_exec exec), source, configFrom?, ih, Option.map_some, Option.some.injEq]
    exact (List.foldl_append ..).symm

end Session

/-! ## What a pool lends -/

/-- All idle matchers are as the template says. -/
def Pool.Faithful (p : Pool) : Prop := ∀ m ∈ p.idle, m.config = p.template

namespace Pool

variable {p : Pool} {m : Matcher}

/-- A faithful pool lends a matcher as its template says, and stays faithful. -/
lemma Faithful.take (h : p.Faithful) : p.take.1.config = p.template ∧ p.take.2.Faithful := by
  obtain ⟨idle, template⟩ := p
  cases idle with
  | nil => exact ⟨rfl, h⟩
  | cons newest older =>
    exact ⟨h newest List.mem_cons_self, fun m mem => h m (List.mem_cons_of_mem newest mem)⟩

/-- A faithful pool stays faithful if it takes back a matcher as its template says. -/
lemma Faithful.give (h : p.Faithful) (config : m.config = p.template) : (p.give m).Faithful := by
  intro m' mem
  obtain rfl | mem := List.mem_cons.mp mem
  · exact config
  · exact h m' mem

end Pool

namespace Session

/-- The matchers of pool number `n`, idle or on loan, are as its template says. -/
structure Faithful (n : Nat) (s : Session) : Prop where
  idle : ∀ p, s.pools[n]? = some p → p.Faithful
  loans : ∀ name m, s.holdings.find? name = some ⟨m, some n⟩ → ∃ p, s.pools[n]? = some p ∧ m.config = p.template

/-- A matcher that is on loan from pool number `n`, if it is, is as the pool's template says. -/
def Fits (s : Session) (n : Nat) (h : Holding) : Prop :=
  h.loan = some n → ∃ p, s.pools[n]? = some p ∧ h.matcher.config = p.template

variable {s s' : Session} {k n : Nat} {p p' : Pool} {name : String} {h : Holding} {command : Command} {site : Site}

/-- In a faithful session whatever is held fits. -/
lemma Faithful.fits (faithful : s.Faithful n) (held : s.holdings.find? name = some h) : s.Fits n h := by
  obtain ⟨m, loan⟩ := h
  rintro rfl
  exact faithful.loans name m held

/-- A faithful session stays so if it puts a matcher that fits under a name. -/
lemma Faithful.insert (faithful : s.Faithful n) (fits : s.Fits n h) :
    Faithful n { s with holdings := s.holdings.insert name h } where
  idle := faithful.idle
  loans other m held := by
    by_cases eq : other = name
    · rw [eq, Names.find?_insert_self, Option.some.injEq] at held
      rw [held] at fits
      exact fits rfl
    · rw [Names.find?_insert_of_ne _ _ eq] at held
      exact faithful.loans other m held

/-- A faithful session stays so if it frees a name. -/
lemma Faithful.erase (faithful : s.Faithful n) : Faithful n { s with holdings := s.holdings.erase name } where
  idle := faithful.idle
  loans other m held := by
    by_cases eq : other = name
    · rw [eq, Names.find?_erase_self] at held
      cases held
    · rw [Names.find?_erase_of_ne _ eq] at held
      exact faithful.loans other m held

/-- Another pool may change as it likes, and pool number `n` as long as it stays faithful to its template. -/
lemma Faithful.pools (faithful : s.Faithful n) (holdings : s'.holdings = s.holdings)
    (own : ∀ p, s.pools[n]? = some p → ∃ p', s'.pools[n]? = some p' ∧ p'.template = p.template)
    (idle : ∀ p, s'.pools[n]? = some p → p.Faithful) : s'.Faithful n where
  idle := idle
  loans other m held := by
    rw [holdings] at held
    obtain ⟨p, found, config⟩ := faithful.loans other m held
    obtain ⟨p', found', template⟩ := own p found
    exact ⟨p', found', config.trans template.symm⟩

/-- A faithful session stays so if it exchanges a pool for one with the same template that is as faithful. -/
lemma Faithful.exchange {pools : Array Pool} (faithful : s.Faithful n) (exchanged : s.Exchanged k p p' pools)
    (template : p'.template = p.template) (keeps : k = n → p.Faithful → p'.Faithful) :
    Faithful n { s with pools } := by
  by_cases eq : k = n
  · obtain rfl := eq
    refine faithful.pools rfl (fun p₀ found₀ => ⟨p', exchanged.after, ?_⟩) fun p₀ found₀ => ?_
    · rw [exchanged.before, Option.some.injEq] at found₀
      exact found₀ ▸ template
    · have same : p' = p₀ := Option.some.inj (exchanged.after.symm.trans found₀)
      exact same ▸ keeps rfl (faithful.idle p exchanged.before)
  · have others := exchanged.others n (Ne.symm eq)
    refine faithful.pools rfl (fun p₀ found₀ => ⟨p₀, others.trans found₀, rfl⟩) fun p₀ found₀ => ?_
    exact faithful.idle p₀ (others.symm.trans found₀)

/-- A faithful session stays so if it gives back a matcher that fits. -/
lemma Faithful.release {old : Option Holding} (faithful : s.Faithful n) (fits : ∀ h, old = some h → s.Fits n h) :
    (s.release old).Faithful n := by
  obtain _ | ⟨m, _ | k⟩ := old
  · exact faithful
  · exact faithful
  cases found : s.pools[k]? with
  | none =>
    -- the pool is not there, so nothing is given back to it
    rw [Session.release, modify_of_none found]
    exact faithful
  | some p =>
    refine faithful.exchange (exchanged_modify (·.give m) found) rfl fun eq idle => ?_
    obtain rfl := eq
    obtain ⟨p₀, found₀, config⟩ := fits _ rfl rfl
    rw [found, Option.some.injEq] at found₀
    exact idle.give (found₀ ▸ config)

/-- A faithful session stays so if it holds a matcher that fits in place of another one. -/
lemma Faithful.hold (faithful : s.Faithful n) (fits : s.Fits n h) : (s.hold name h).Faithful n :=
  (faithful.insert fits).release fun _ held => faithful.fits held

/-- A faithful session stays so if it drops a matcher. -/
lemma Faithful.drop (faithful : s.Faithful n) : (s.drop name).Faithful n :=
  faithful.erase.release fun _ held => faithful.fits held

/-- A faithful session stays so whatever a command does, unless it overwrites a matcher on loan. -/
lemma Faithful.effect (faithful : s.Faithful n) (effect : Effect s command s') (spared : ¬ s.Overwrites n command) :
    s'.Faithful n := by
  cases effect with
  | setLimit => exact ⟨faithful.idle, faithful.loans⟩
  | limit => exact faithful
  | info => exact faithful
  | testOnce => exact faithful
  | idle => exact faithful
  | configure => exact ⟨faithful.idle, faithful.loans⟩
  | reconfigure => exact ⟨faithful.idle, faithful.loans⟩
  | create => exact faithful.hold nofun
  | @recreate name own c h config held =>
    -- the new matcher is as it pleases, but it is not on loan from this pool
    obtain ⟨m, loan⟩ := h
    refine faithful.insert fun (on_loan : loan = some n) => absurd ⟨m, ?_⟩ spared
    rw [held, on_loan]
  | @test name p text h budget o held test =>
    refine faithful.insert fun loan => ?_
    obtain ⟨p, found, config⟩ := faithful.fits held loan
    exact ⟨p, found, (Matcher.config_of_test test).trans config⟩
  | @openPool pool own c config =>
    refine faithful.pools rfl (fun p found => ⟨p, ?_, rfl⟩) fun p found => ?_
    · obtain ⟨lt, _⟩ := Array.getElem?_eq_some_iff.mp found
      rw [Array.getElem?_push, if_neg (Nat.ne_of_lt lt), found]
    · rw [Array.getElem?_push] at found
      split at found
      · cases found
        nofun
      · exact faithful.idle p found
  | @borrow pool name k p found =>
    have found' := getElem?_of_pool found
    have taken : s.Exchanged k p p.take.2 (s.pools.setIfInBounds k p.take.2) := exchanged_set found'
    have lent := faithful.exchange taken Pool.template_take fun _ h => h.take.2
    refine lent.hold fun loan => ?_
    obtain rfl := Option.some.inj loan
    obtain ⟨config, _⟩ := (faithful.idle p found').take
    exact ⟨p.take.2, taken.after, config.trans Pool.template_take.symm⟩
  | @testPooled pool program text k p budget o found test =>
    have found' := getElem?_of_pool found
    refine faithful.exchange (exchanged_set found') Pool.template_take fun _ h => h.take.2.give ?_
    rw [Matcher.config_of_test test, Pool.template_take]
    exact h.take.1
  | drop => exact faithful.drop

/-- Sessions in which no matcher on loan has been overwritten are faithful. -/
lemma Undisturbed.faithful (undisturbed : s.Undisturbed n) : s.Faithful n := by
  induction undisturbed with
  | empty => exact ⟨nofun, nofun⟩
  | exec _ exec spared ih => exact ih.effect (effect_of_exec exec) spared

/-! ## Configurations are fixed -/

/-- Settings are made while there is only a configuration. What has been made from it is handed on as it is. -/
lemma changes_of_source {before : Site} {changes : List Setting} (ne : ∀ name, site ≠ .config name)
    (source : s.source command site = .site before changes) : changes = [] := by
  have made (own : ConfigSource) (eq : madeFrom own = .site before changes) : changes = [] := by
    cases own with
    | named => exact (Source.site.inj eq).2.symm
    | settings => cases eq
  have letGo (name : String) (eq : s.sourceLetGo name site = .site before changes) : changes = [] := by
    rw [sourceLetGo] at eq
    split at eq
    · exact (Source.site.inj eq).2.symm
    · exact (Source.site.inj eq).2.symm
  cases command with
  | configure name => exact (Source.site.inj ((if_neg (ne name)).symm.trans source)).2.symm
  | reconfigure name => exact (Source.site.inj ((if_neg (ne name)).symm.trans source)).2.symm
  | create name own =>
    rw [Session.source] at source
    split at source
    · exact made own source
    · exact letGo name source
  | recreate name own =>
    rw [Session.source] at source
    split at source
    · exact made own source
    · exact (Source.site.inj source).2.symm
  | openPool pool own =>
    rw [Session.source] at source
    split at source
    · exact made own source
    · exact (Source.site.inj source).2.symm
  | borrow pool name =>
    simp only [Session.source, lendingSource] at source
    grind
  | testPooled pool =>
    simp only [Session.source] at source
    grind
  | drop name =>
    rw [Session.source] at source
    split at source
    · cases source
    · exact letGo name source
  | _ => exact (Source.site.inj source).2.symm

/-- Everything in a session goes back to an origin, and has the configuration that was laid down there: its limit is
the one that was last asked for, and otherwise the one in force when all began. Matchers and templates are handed on
as they are, and a later change of the session's limit leaves every site as it is. What a pool lends is as its
template says, unless another matcher has been put in the place of one on loan from it. -/
theorem config_of_stems (reached : s.Reached) :
    (∀ site c, s.configAt? site = some c → ∃ origin, s.Stems site origin) ∧
      (∀ site origin, s.Stems site origin → s.configAt? site = some origin.config ∧
        origin.config.limit = origin.explicitLimit?.getD origin.limit) ∧
      (∀ budget command reply log s', s.exec budget command = .ok (reply, log, s') →
        ∀ site before changes, (∀ name, site ≠ .config name) → s.source command site = .site before changes →
          s'.configAt? site = s.configAt? before) ∧
      (∀ budget limit reply log s', s.exec budget (.setLimit limit) = .ok (reply, log, s') →
        ∀ site, s'.configAt? site = s.configAt? site) ∧
      ∀ n p, s.Undisturbed n → s.pools[n]? = some p →
        p.take.1.config = p.template ∧
          ∀ name m, s.holdings.find? name = some ⟨m, some n⟩ → m.config = p.template := by
  refine ⟨fun site c found => reached.stems found, fun site origin stems => ⟨stems.configAt?_eq, ?_⟩,
    fun budget command reply log s' exec site before changes ne source => ?_,
    fun budget limit reply log s' exec site => ?_, fun n p undisturbed found => ?_⟩
  · exact Config.limit_applyAll (.ofLimit origin.limit) origin.changes
  · rw [configAt?_of_effect (effect_of_exec exec), source, changes_of_source ne source]
    exact configFrom?_site
  · exact (configAt?_of_effect (effect_of_exec exec) site).trans configFrom?_site
  · have faithful := undisturbed.faithful
    refine ⟨(faithful.idle p found).take.1, fun name m held => ?_⟩
    obtain ⟨p', found', config⟩ := faithful.loans name m held
    rw [found, Option.some.injEq] at found'
    exact found' ▸ config

/-- Commands begin a configuration under the limit 5 and continue it under 9, when they open a pool too, and the limit
is 1 in the end. A matcher made from the configuration has the limit 5, and what the pool lends the limit 9. -/
theorem config_of_stems_later :
    ∃ s : Session, s.Undisturbed 0 ∧ s.limit = 1 ∧ s.Stems (.named "m") ⟨5, [.trace true, .fastPath false]⟩ ∧
      s.configAt? (.named "m") = some (Origin.config ⟨5, [.trace true, .fastPath false]⟩) ∧
      ∃ m, s.holdings.find? "g" = some ⟨m, some 0⟩ ∧ m.config = .ofLimit 9 := by
  have s₁ := @Undisturbed.exec 0 _ _ 9 (.setLimit 5) _ _ .empty rfl id
  have s₂ := @Undisturbed.exec 0 _ _ 9 (.configure "b" [.trace true]) _ _ s₁ rfl id
  have s₃ := @Undisturbed.exec 0 _ _ 9 (.setLimit 9) _ _ s₂ rfl id
  have s₄ := @Undisturbed.exec 0 _ _ 9 (.openPool "p" (.settings [])) _ _ s₃ rfl id
  have s₅ := @Undisturbed.exec 0 _ _ 9 (.reconfigure "b" "b" [.fastPath false]) _ _ s₄ rfl id
  have s₆ := @Undisturbed.exec 0 _ _ 9 (.setLimit 1) _ _ s₅ rfl id
  have s₇ := @Undisturbed.exec 0 _ _ 9 (.borrow "p" "g") _ _ s₆ rfl id
  have s₈ := @Undisturbed.exec 0 _ _ 9 (.create "m" (.named "b")) _ _ s₇ rfl id
  have b₂ := @Stems.made _ _ (.config "b") _ 9 (.configure "b" [.trace true]) _ _ s₁.reached rfl rfl
  have b₃ := @Stems.passed _ _ (.config "b") _ _ _ _ 9 (.setLimit 9) _ _ b₂ rfl rfl
  have b₄ := @Stems.passed _ _ (.config "b") _ _ _ _ 9 (.openPool "p" (.settings [])) _ _ b₃ rfl rfl
  have b₅ := @Stems.passed _ _ (.config "b") _ _ _ _ 9 (.reconfigure "b" "b" [.fastPath false]) _ _ b₄ rfl rfl
  have b₆ := @Stems.passed _ _ (.config "b") _ _ _ _ 9 (.setLimit 1) _ _ b₅ rfl rfl
  have b₇ := @Stems.passed _ _ (.config "b") _ _ _ _ 9 (.borrow "p" "g") _ _ b₆ rfl rfl
  have m₈ := @Stems.passed _ _ (.named "m") _ _ _ _ 9 (.create "m" (.named "b")) _ _ b₇ rfl rfl
  obtain ⟨_, stems, _, _, lent⟩ := config_of_stems s₈.reached
  exact ⟨_, s₈, rfl, m₈, (stems _ _ m₈).1, _, rfl, (lent 0 _ s₈ rfl).2 "g" _ rfl⟩

end Session

end PatternVM
