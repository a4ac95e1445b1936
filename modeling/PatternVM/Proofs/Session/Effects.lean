import Mathlib.Tactic.Common
import PatternVM.Session.Command

/-!
# Effects of commands

What a command that is carried out does to a session, one rule for each command, apart from its reply and from what
is reported meanwhile. Whatever holds of a session after any commands is proved by these rules
(`Session.effect_of_exec`).
-/

namespace PatternVM

namespace Session

/-- What a command does to a session. -/
inductive Effect (s : Session) : Command → Session → Prop where
  | setLimit {n} :
    Effect s (.setLimit n) { s with limit := n }
  | limit :
    Effect s .limit s
  | configure {name changes} :
    Effect s (.configure name changes)
      { s with configs := s.configs.insert name ((Config.ofLimit s.limit).applyAll changes) }
  | reconfigure {name source changes c} :
    s.configOf (.named source) = .ok c →
    Effect s (.reconfigure name source changes) { s with configs := s.configs.insert name (c.applyAll changes) }
  | create {name source c} :
    s.configOf source = .ok c →
    Effect s (.create name source) (s.hold name ⟨.ofConfig c, none⟩)
  | recreate {name source c h} :
    s.configOf source = .ok c →
    s.holdings.find? name = some h →
    Effect s (.recreate name source) (s.overwrite name h (.ofConfig c))
  | info {name} :
    Effect s (.info name) s
  | test {name p text h budget o} :
    s.holdings.find? name = some h →
    h.matcher.test budget p text = some o →
    Effect s (.test name p text) (s.overwrite name h o.matcher)
  | testOnce {p text} :
    Effect s (.testOnce p text) s
  | openPool {pool source c} :
    s.configOf source = .ok c →
    Effect s (.openPool pool source)
      { s with
        pools := s.pools.push (.ofTemplate c)
        poolNumbers := s.poolNumbers.insert pool s.pools.size }
  | borrow {pool name n p} :
    s.pool pool = .ok (n, p) →
    Effect s (.borrow pool name)
      ({ s with pools := s.pools.setIfInBounds n p.take.2 }.hold name ⟨p.take.1, some n⟩)
  | testPooled {pool program text n p budget o} :
    s.pool pool = .ok (n, p) →
    p.take.1.test budget program text = some o →
    Effect s (.testPooled pool program text)
      { s with pools := s.pools.setIfInBounds n (p.take.2.give o.matcher) }
  | idle {pool} :
    Effect s (.idle pool) s
  | drop {name} :
    Effect s (.drop name) (s.drop name)

variable {s s' : Session} {name pool : String} {n : Nat} {p : Pool} {h : Holding}

/-- If two computations one after the other succeed, so does each of them. -/
lemma bind_eq_ok {ε α β : Type} {x : Except ε α} {f : α → Except ε β} {b : β} (eq : x >>= f = .ok b) :
    ∃ a, x = .ok a ∧ f a = .ok b := by
  cases x with
  | error e => cases eq
  | ok a => exact ⟨a, rfl, eq⟩

/-- A holding that is found is under its name. -/
lemma holding_eq_ok (eq : s.holding name = .ok h) : s.holdings.find? name = some h := by
  rw [holding] at eq
  split at eq
  · rename_i found
    cases eq
    exact found
  · cases eq

/-- A pool that is found is at its number. -/
lemma getElem?_of_pool (eq : s.pool pool = .ok (n, p)) : s.pools[n]? = some p := by
  rw [Session.pool] at eq
  split at eq
  · cases eq
  · split at eq
    · cases eq
    · rename_i found
      cases eq
      exact found

/-- A match that has finished has an outcome. -/
lemma finished_eq_ok {α : Type} {x : Option α} {a : α} (eq : finished x = .ok a) : x = some a := by
  cases x with
  | none => cases eq
  | some b =>
    cases eq
    rfl

/-- A command that is carried out has its effect. -/
lemma effect_of_exec {budget : Nat} {command : Command} {reply : Reply} {log : Log}
    (exec : s.exec budget command = .ok (reply, log, s')) : Effect s command s' := by
  cases command with
  | setLimit n =>
    cases exec
    exact .setLimit
  | limit =>
    cases exec
    exact .limit
  | configure name changes =>
    cases exec
    exact .configure
  | reconfigure name source changes =>
    obtain ⟨c, config, exec⟩ := bind_eq_ok exec
    cases exec
    exact .reconfigure config
  | create name source =>
    obtain ⟨c, config, exec⟩ := bind_eq_ok exec
    cases exec
    exact .create config
  | recreate name source =>
    obtain ⟨c, config, exec⟩ := bind_eq_ok exec
    obtain ⟨h, held, exec⟩ := bind_eq_ok exec
    cases exec
    exact .recreate config (holding_eq_ok held)
  | info name =>
    obtain ⟨h, held, exec⟩ := bind_eq_ok exec
    cases exec
    exact .info
  | test name p text =>
    obtain ⟨h, held, exec⟩ := bind_eq_ok exec
    obtain ⟨o, test, exec⟩ := bind_eq_ok exec
    cases exec
    exact .test (holding_eq_ok held) (finished_eq_ok test)
  | testOnce p text =>
    obtain ⟨c, config, exec⟩ := bind_eq_ok exec
    obtain ⟨o, test, exec⟩ := bind_eq_ok exec
    cases exec
    exact .testOnce
  | openPool pool source =>
    obtain ⟨c, config, exec⟩ := bind_eq_ok exec
    cases exec
    exact .openPool config
  | borrow pool name =>
    obtain ⟨⟨n, p⟩, found, exec⟩ := bind_eq_ok exec
    obtain ⟨⟨_, after⟩, _, exec⟩ := bind_eq_ok exec
    cases exec
    exact .borrow found
  | testPooled pool program text =>
    obtain ⟨⟨n, p⟩, found, exec⟩ := bind_eq_ok exec
    obtain ⟨r, test, exec⟩ := bind_eq_ok exec
    obtain ⟨o, test', rfl⟩ := Pool.test_eq_some_iff.mp (finished_eq_ok test)
    cases exec
    exact .testPooled found test'
  | idle pool =>
    obtain ⟨_, _, exec⟩ := bind_eq_ok exec
    cases exec
    exact .idle
  | drop name =>
    obtain ⟨_, _, exec⟩ := bind_eq_ok exec
    cases exec
    exact .drop

end Session

end PatternVM
