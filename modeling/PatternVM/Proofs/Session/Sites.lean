import PatternVM.Proofs.Matcher.Isolation
import PatternVM.Proofs.Session.Effects

/-!
# Sites

Where a session keeps things that have configurations. Named configurations, pools and matchers are looked for at
*sites*, and `Session.source` says for each command where the thing at a site comes from: it has just been made, it
was there or at another site before, or it has been made from what was there. It says nothing about what the things
are like; that a command leaves at each site what comes from its source is `Session.configAt?_of_effect`.
-/

namespace PatternVM

/-- The idle matcher that has `below` others below it. -/
def Pool.idleAt? (p : Pool) (below : Nat) : Option Matcher := p.idle.reverse[below]?

namespace Session

/-- Where a session keeps something that has a configuration. -/
inductive Site
  /-- The configuration under a name. -/
  | config (name : String)
  /-- What a pool makes its matchers from. -/
  | template (n : Nat)
  /-- The matcher under a name. -/
  | named (name : String)
  /-- The idle matcher of a pool that has `below` others below it. -/
  | idle (n below : Nat)
  deriving DecidableEq

/-- Where the thing at a site comes from. -/
inductive Source
  /-- It has just been made, out of the session's limit and some settings. -/
  | made (changes : List Setting)
  /-- It was at a site before, or it has been made out of what was there and some further settings. -/
  | site (before : Site) (changes : List Setting)
  /-- There is no such thing. -/
  | nothing

/-- The configuration of the thing at a site. -/
def configAt? (s : Session) : Site → Option Config
  | .config name => s.configs.find? name
  | .template n => s.pools[n]?.map Pool.template
  | .named name => (s.holdings.find? name).map (·.matcher.config)
  | .idle n below => (s.pools[n]?.bind (·.idleAt? below)).map Matcher.config

/-- The configuration that the thing from a source has to begin with. -/
def configFrom? (s : Session) : Source → Option Config
  | .made changes => some ((Config.ofLimit s.limit).applyAll changes)
  | .site before changes => (s.configAt? before).map (·.applyAll changes)
  | .nothing => none

/-- What is made from a configuration. -/
def madeFrom : ConfigSource → Source
  | .named name => .site (.config name) []
  | .settings changes => .made changes

/-- The site that a matcher goes to when it is given back: on top of the pool that it is on loan from. -/
def returnSite? (s : Session) : Option Holding → Option Site
  | some ⟨_, some n⟩ => s.pools[n]?.map fun p => .idle n p.idle.length
  | _ => none

/-- The thing at `site` after the matcher under `name` has been let go of. -/
def sourceLetGo (s : Session) (name : String) (site : Site) : Source :=
  if s.returnSite? (s.holdings.find? name) = some site then .site (.named name) [] else .site site []

/-- What pool number `n` lends: the newest idle matcher, or one made from the template. -/
def lendingSource (n : Nat) (p : Pool) : Source :=
  match p.idle with
  | [] => .site (.template n) []
  | _ :: older => .site (.idle n older.length) []

/-- Where the thing at a site after a command comes from. -/
def source (s : Session) : Command → Site → Source
  | .configure name changes, site => if site = .config name then .made changes else .site site []
  | .reconfigure name before changes, site =>
    if site = .config name then .site (.config before) changes else .site site []
  | .create name own, site => if site = .named name then madeFrom own else s.sourceLetGo name site
  | .recreate name own, site => if site = .named name then madeFrom own else .site site []
  | .openPool _ own, site => if site = .template s.pools.size then madeFrom own else .site site []
  | .borrow pool name, site =>
    match s.pool pool with
    | .error _ => .nothing
    | .ok (n, p) =>
      -- the matcher is lent before the one under its name is let go of, perhaps to the same pool
      let lent := { s with pools := s.pools.setIfInBounds n p.take.2 }
      if site = .named name then lendingSource n p
      else if lent.returnSite? (s.holdings.find? name) = some site then .site (.named name) []
      else if p.idle ≠ [] ∧ site = .idle n (p.idle.length - 1) then .nothing
      else .site site []
  | .testPooled pool _ _, site =>
    match s.pool pool with
    | .error _ => .nothing
    | .ok (n, p) => if p.idle = [] ∧ site = .idle n 0 then .site (.template n) [] else .site site []
  | .drop name, site => if site = .named name then .nothing else s.sourceLetGo name site
  | .setLimit _, site | .limit, site | .info _, site | .test .., site | .testOnce .., site | .idle _, site =>
    .site site []

end Session

/-! ## What moves where -/

namespace Pool

variable {p : Pool} {m : Matcher} {below : Nat}

/-- A matcher that is given back lies on top of the idle ones. -/
lemma idleAt?_give :
    (p.give m).idleAt? below = if below = p.idle.length then some m else p.idleAt? below := by
  simp only [idleAt?, give, List.reverse_cons, List.getElem?_append, List.length_reverse]
  split
  · rename_i lt
    rw [if_neg (Nat.ne_of_lt lt)]
  · rename_i ge
    split
    · rename_i eq
      rw [eq, Nat.sub_self]
      rfl
    · rw [List.getElem?_eq_none, List.getElem?_eq_none]
      · rw [List.length_reverse]
        omega
      · rw [List.length_singleton]
        omega

/-- Lending takes the matcher on top, and leaves those below it. -/
lemma idleAt?_take :
    p.take.2.idleAt? below =
      if p.idle ≠ [] ∧ below = p.idle.length - 1 then none else p.idleAt? below := by
  obtain ⟨idle, template⟩ := p
  cases idle with
  | nil => rfl
  | cons m older =>
    have given : (mk (m :: older) template) = (mk older template).give m := rfl
    simp only [take, List.length_cons, Nat.add_sub_cancel, ne_eq, reduceCtorEq, not_false_eq_true, true_and]
    rw [given, idleAt?_give]
    split
    · rename_i eq
      rw [eq, idleAt?, List.getElem?_eq_none]
      exact Nat.le_of_eq List.length_reverse
    · rfl

/-- The matcher that is lent was the topmost one. -/
lemma idleAt?_top (some_idle : p.idle ≠ []) : p.idleAt? (p.idle.length - 1) = some p.take.1 := by
  obtain ⟨idle, template⟩ := p
  cases idle with
  | nil => exact absurd rfl some_idle
  | cons m older => exact (idleAt?_give (p := ⟨older, template⟩)).trans (if_pos rfl)

/-- A matcher that comes back at once takes the place of the one that was lent. -/
lemma idleAt?_give_take :
    (p.take.2.give m).idleAt? below =
      if below = p.idle.length - 1 then some m else p.idleAt? below := by
  have top : p.take.2.idle.length = p.idle.length - 1 := by
    obtain ⟨idle, template⟩ := p
    cases idle with
    | nil => rfl
    | cons m older => rfl
  rw [idleAt?_give, top, idleAt?_take]
  split
  · rfl
  · rename_i ne
    rw [if_neg fun both => ne both.2]

/-- Lending leaves the template as it is. -/
lemma template_take : p.take.2.template = p.template := by
  obtain ⟨idle, template⟩ := p
  cases idle with
  | nil => rfl
  | cons m older => rfl

end Pool

namespace Session

/-- Of the pools of a session, number `n` has been exchanged, `p` for `p'`. -/
structure Exchanged (s : Session) (n : Nat) (p p' : Pool) (pools : Array Pool) : Prop where
  before : s.pools[n]? = some p
  after : pools[n]? = some p'
  others : ∀ k, k ≠ n → pools[k]? = s.pools[k]?

variable {s s' : Session} {site : Site} {name : String} {n below : Nat} {p p' : Pool} {h : Holding}
variable {m : Matcher} {c : Config} {own : ConfigSource}

/-- A matcher put under a name is found there, and everything else where it was. -/
lemma configAt?_insert :
    configAt? { s with holdings := s.holdings.insert name h } site =
      if site = .named name then some h.matcher.config else s.configAt? site := by
  by_cases at_name : site = .named name
  · rw [if_pos at_name, at_name, configAt?, Names.find?_insert_self]
    rfl
  · rw [if_neg at_name]
    cases site with
    | named other =>
      have ne : other ≠ name := fun eq => at_name (congrArg Site.named eq)
      rw [configAt?, Names.find?_insert_of_ne _ _ ne, configAt?]
    | _ => rfl

/-- After a name has been freed nothing is found there, and everything else where it was. -/
lemma configAt?_erase :
    configAt? { s with holdings := s.holdings.erase name } site =
      if site = .named name then none else s.configAt? site := by
  by_cases at_name : site = .named name
  · rw [if_pos at_name, at_name, configAt?, Names.find?_erase_self]
    rfl
  · rw [if_neg at_name]
    cases site with
    | named other =>
      have ne : other ≠ name := fun eq => at_name (congrArg Site.named eq)
      rw [configAt?, Names.find?_erase_of_ne _ ne, configAt?]
    | _ => rfl

/-- A configuration put under a name is found there, and everything else where it was. -/
lemma configAt?_configs {c : Config} :
    configAt? { s with configs := s.configs.insert name c } site =
      if site = .config name then some c else s.configAt? site := by
  by_cases at_name : site = .config name
  · rw [if_pos at_name, at_name, configAt?, Names.find?_insert_self]
  · rw [if_neg at_name]
    cases site with
    | config other =>
      have ne : other ≠ name := fun eq => at_name (congrArg Site.config eq)
      rw [configAt?, Names.find?_insert_of_ne _ _ ne, configAt?]
    | _ => rfl

/-- The configurations of idle matchers are read off their pool. -/
lemma configAt?_idle (found : s.pools[n]? = some p) :
    s.configAt? (.idle n below) = (p.idleAt? below).map Matcher.config := by
  rw [configAt?, found]
  rfl

/-- Writing a pool to its number exchanges it. -/
lemma exchanged_set (found : s.pools[n]? = some p) : s.Exchanged n p p' (s.pools.setIfInBounds n p') where
  before := found
  after := by
    obtain ⟨lt, _⟩ := Array.getElem?_eq_some_iff.mp found
    exact Array.getElem?_setIfInBounds_self_of_lt lt
  others k ne := Array.getElem?_setIfInBounds_ne (Ne.symm ne)

/-- A change of a pool that is not there changes nothing. -/
lemma modify_of_none {f : Pool → Pool} (missing : s.pools[n]? = none) : s.pools.modify n f = s.pools := by
  refine Array.ext_getElem? fun k => ?_
  rw [Array.getElem?_modify]
  split
  · rename_i eq
    rw [← eq, missing]
    rfl
  · rfl

/-- Changing a pool at its number exchanges it. -/
lemma exchanged_modify (f : Pool → Pool) (found : s.pools[n]? = some p) :
    s.Exchanged n p (f p) (s.pools.modify n f) where
  before := found
  after := by
    rw [Array.getElem?_modify, if_pos rfl, found]
    rfl
  others k ne := by rw [Array.getElem?_modify, if_neg (Ne.symm ne)]

/-- Only the idle matchers of the exchanged pool are affected. -/
lemma Exchanged.configAt? {pools : Array Pool} (h : s.Exchanged n p p' pools) (template : p'.template = p.template)
    (ne : ∀ below, site ≠ .idle n below) : Session.configAt? { s with pools } site = s.configAt? site := by
  cases site with
  | config name => rfl
  | named name => rfl
  | template k =>
    rw [Session.configAt?, Session.configAt?]
    by_cases eq : k = n
    · rw [eq, h.after, h.before, Option.map_some, Option.map_some, template]
    · rw [h.others k eq]
  | idle k below =>
    have eq : k ≠ n := fun eq => ne below (congrArg (Site.idle · below) eq)
    rw [Session.configAt?, Session.configAt?, h.others k eq]

/-- A matcher that is given back is found on top of its pool, and everything else where it was. -/
lemma configAt?_release {h : Option Holding} :
    (s.release h).configAt? site =
      if s.returnSite? h = some site then h.map (·.matcher.config) else s.configAt? site := by
  obtain _ | ⟨m, _ | n⟩ := h
  · rfl
  · rfl
  rw [release, returnSite?]
  cases found : s.pools[n]? with
  | none =>
    rw [modify_of_none found]
    rfl
  | some p =>
    have given : s.Exchanged n p (p.give m) (s.pools.modify n (·.give m)) := exchanged_modify (·.give m) found
    simp only [Option.map_some, Option.some.injEq]
    by_cases in_pool : ∃ below, site = .idle n below
    · obtain ⟨below, rfl⟩ := in_pool
      rw [configAt?_idle given.after, Pool.idleAt?_give, configAt?_idle found]
      by_cases top : below = p.idle.length
      · rw [if_pos top, if_pos (congrArg (Site.idle n) top.symm)]
        rfl
      · rw [if_neg top, if_neg fun eq => top (Site.idle.inj eq).2.symm]
    · have elsewhere := not_exists.mp in_pool
      rw [given.configAt? rfl elsewhere, if_neg fun eq => elsewhere _ eq.symm]

/-- No matcher is given back to a name. -/
lemma returnSite?_ne_named {h : Option Holding} : s.returnSite? h ≠ some (.named name) := by
  obtain _ | ⟨m, _ | n⟩ := h
  · nofun
  · nofun
  · rw [returnSite?]
    cases s.pools[n]? with
    | none => nofun
    | some p => nofun

/-- Without changes, the thing from a site has the configuration that is there. -/
lemma configFrom?_site : s.configFrom? (.site site []) = s.configAt? site := by
  rw [configFrom?]
  cases s.configAt? site with
  | none => rfl
  | some c => rfl

/-- A thing made from a configuration has that one. -/
lemma configFrom?_madeFrom (config : s.configOf own = .ok c) : s.configFrom? (madeFrom own) = some c := by
  cases own with
  | named name =>
    rw [madeFrom, configFrom?_site, configAt?]
    rw [configOf] at config
    split at config
    · rename_i found
      cases config
      exact found
    · cases config
  | settings changes =>
    cases config
    rfl

/-- When the matcher under a name has been let go of, it is where it is given back to. -/
lemma configFrom?_sourceLetGo :
    s.configFrom? (s.sourceLetGo name site) =
      if s.returnSite? (s.holdings.find? name) = some site then (s.holdings.find? name).map (·.matcher.config)
      else s.configAt? site := by
  rw [sourceLetGo]
  split
  · exact configFrom?_site
  · exact configFrom?_site

/-- A matcher that is held is found under its name, and the one that it replaces where that goes back to. -/
lemma configAt?_hold :
    (s.hold name h).configAt? site =
      if site = .named name then some h.matcher.config else s.configFrom? (s.sourceLetGo name site) := by
  have goesTo (old : Option Holding) :
      returnSite? { s with holdings := s.holdings.insert name h } old = s.returnSite? old := rfl
  rw [hold, configAt?_release, goesTo, configAt?_insert, configFrom?_sourceLetGo]
  by_cases at_name : site = .named name
  · rw [if_pos at_name, if_pos at_name, at_name, if_neg returnSite?_ne_named]
  · rw [if_neg at_name, if_neg at_name]

/-- After a matcher has been dropped it is found where it goes back to. -/
lemma configAt?_drop :
    (s.drop name).configAt? site =
      if site = .named name then none else s.configFrom? (s.sourceLetGo name site) := by
  have goesTo (old : Option Holding) :
      returnSite? { s with holdings := s.holdings.erase name } old = s.returnSite? old := rfl
  rw [drop, configAt?_release, goesTo, configAt?_erase, configFrom?_sourceLetGo]
  by_cases at_name : site = .named name
  · rw [if_pos at_name, if_pos at_name, at_name, if_neg returnSite?_ne_named]
  · rw [if_neg at_name, if_neg at_name]

/-- What is at the sites when a matcher of a pool is on loan. -/
lemma configAt?_take (found : s.pools[n]? = some p) :
    configAt? { s with pools := s.pools.setIfInBounds n p.take.2 } site =
      if p.idle ≠ [] ∧ site = .idle n (p.idle.length - 1) then none else s.configAt? site := by
  have taken : s.Exchanged n p p.take.2 (s.pools.setIfInBounds n p.take.2) := exchanged_set found
  by_cases in_pool : ∃ below, site = .idle n below
  · obtain ⟨below, rfl⟩ := in_pool
    rw [configAt?_idle taken.after, Pool.idleAt?_take, configAt?_idle found]
    simp only [Site.idle.injEq, true_and]
    split
    · rfl
    · rfl
  · have elsewhere := not_exists.mp in_pool
    rw [taken.configAt? Pool.template_take elsewhere, if_neg fun both => elsewhere _ both.2]

/-- What a pool lends has the configuration of its source. -/
lemma configFrom?_lendingSource (found : s.pools[n]? = some p) :
    s.configFrom? (lendingSource n p) = some p.take.1.config := by
  obtain ⟨idle, template⟩ := p
  cases idle with
  | nil =>
    rw [lendingSource, configFrom?_site, configAt?, found]
    rfl
  | cons m older =>
    have top := Pool.idleAt?_top (p := ⟨m :: older, template⟩) (List.cons_ne_nil m older)
    rw [lendingSource, configFrom?_site, configAt?_idle found]
    exact congrArg (Option.map Matcher.config) top

/-- What is at the sites when a pool has matched by itself. -/
lemma configAt?_testPooled (found : s.pools[n]? = some p) (config : m.config = p.take.1.config) :
    configAt? { s with pools := s.pools.setIfInBounds n (p.take.2.give m) } site =
      if p.idle = [] ∧ site = .idle n 0 then s.configAt? (.template n) else s.configAt? site := by
  have used : s.Exchanged n p (p.take.2.give m) (s.pools.setIfInBounds n (p.take.2.give m)) := exchanged_set found
  by_cases in_pool : ∃ below, site = .idle n below
  · obtain ⟨below, rfl⟩ := in_pool
    rw [configAt?_idle used.after, Pool.idleAt?_give_take]
    by_cases none : p.idle = []
    · -- the matcher has been made from the template, and is the only one
      have made : p.take.1 = .ofConfig p.template := by rw [Pool.take, none]
      rw [none, List.length_nil]
      by_cases bottom : below = 0
      · rw [if_pos bottom, if_pos ⟨rfl, congrArg (Site.idle n) bottom⟩, configAt?, found, Option.map_some, config,
          made]
        rfl
      · rw [if_neg bottom, if_neg fun both => bottom (Site.idle.inj both.2).2, configAt?_idle found]
    · have not_made : ¬ (p.idle = [] ∧ Site.idle n below = .idle n 0) := fun both => none both.1
      rw [if_neg not_made, configAt?_idle found]
      by_cases top : below = p.idle.length - 1
      · rw [if_pos top, top, Pool.idleAt?_top none]
        exact congrArg some config
      · rw [if_neg top]
  · have elsewhere := not_exists.mp in_pool
    have template : (p.take.2.give m).template = p.template := Pool.template_take
    rw [used.configAt? template elsewhere, if_neg fun both => elsewhere _ both.2]

/-- What is at the sites when there is a new pool. -/
lemma configAt?_openPool {c : Config} {poolNumbers : Names Nat} :
    configAt? { s with pools := s.pools.push (.ofTemplate c), poolNumbers } site =
      if site = .template s.pools.size then some c else s.configAt? site := by
  cases site with
  | template k =>
    simp only [configAt?, Array.getElem?_push, Site.template.injEq]
    split
    · rfl
    · rfl
  | idle k below =>
    rw [if_neg nofun, configAt?, configAt?, Array.getElem?_push]
    split
    · rename_i eq
      rw [eq, Array.getElem?_eq_none (Nat.le_refl _)]
      rfl
    · rfl
  | _ => rfl

/-- A command leaves at each site what comes there from its source. -/
theorem configAt?_of_effect {command : Command} (effect : Effect s command s') (site : Site) :
    s'.configAt? site = s.configFrom? (s.source command site) := by
  cases effect with
  | setLimit => exact configFrom?_site.symm
  | limit => exact configFrom?_site.symm
  | info => exact configFrom?_site.symm
  | testOnce => exact configFrom?_site.symm
  | idle => exact configFrom?_site.symm
  | @configure name changes =>
    rw [configAt?_configs, source]
    split
    · rfl
    · exact configFrom?_site.symm
  | @reconfigure name before changes c config =>
    have at_before : s.configAt? (.config before) = some c :=
      configFrom?_site.symm.trans (configFrom?_madeFrom config)
    rw [configAt?_configs, source]
    split
    · rw [configFrom?, at_before]
      rfl
    · exact configFrom?_site.symm
  | @create name own c config =>
    rw [configAt?_hold, source]
    split
    · exact (configFrom?_madeFrom config).symm
    · rfl
  | @recreate name own c h config held =>
    rw [overwrite, configAt?_insert, source]
    split
    · exact (configFrom?_madeFrom config).symm
    · exact configFrom?_site.symm
  | @test name p text h budget o held test =>
    rw [overwrite, configAt?_insert, source, configFrom?_site]
    split
    · rename_i eq
      rw [eq, configAt?, held, Option.map_some]
      exact congrArg some (Matcher.config_of_test test)
    · rfl
  | @openPool pool own c config =>
    rw [configAt?_openPool, source]
    split
    · exact (configFrom?_madeFrom config).symm
    · exact configFrom?_site.symm
  | @borrow pool name n p found =>
    have found' := getElem?_of_pool found
    simp only [source, found]
    rw [configAt?_hold, configFrom?_sourceLetGo, configAt?_take found']
    split
    · exact (configFrom?_lendingSource found').symm
    · split
      · rw [configFrom?_site, configAt?]
      · split
        · rfl
        · exact configFrom?_site.symm
  | @testPooled pool program text n p budget o found test =>
    simp only [source, found]
    rw [configAt?_testPooled (getElem?_of_pool found) (Matcher.config_of_test test)]
    split
    · exact configFrom?_site.symm
    · exact configFrom?_site.symm
  | @drop name =>
    rw [configAt?_drop, source]
    split
    · rfl
    · rfl

end Session

end PatternVM
