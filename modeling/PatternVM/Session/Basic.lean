import PatternVM.Matcher.Pool
import PatternVM.Session.Names

/-!
# Sessions

A session holds named matchers, named configurations and named pools, and the limit that is given to
whatever is created without one of its own. That limit is read once, when a configuration is made; later
changes of it leave what exists as it is.

A matcher may be on loan from a pool. It goes back when its name is dropped or given to another matcher,
and always to the pool that it came from, also if that pool's name has been given to another pool since.
-/

namespace PatternVM

/-- A matcher under a name, and the number of the pool that it is on loan from. -/
structure Holding where
  matcher : Matcher
  loan : Option Nat

/-- What a session holds. Pools are numbered in the order of their making. -/
structure Session where
  limit : Nat
  configs : Names Config
  holdings : Names Holding
  pools : Array Pool
  poolNumbers : Names Nat

/-- Where a new matcher or pool takes its configuration from. -/
inductive ConfigSource
  /-- The configuration under a name. -/
  | named (name : String)
  /-- The session's limit and no options, changed by some settings. -/
  | settings (changes : List Setting)

/-- Why a command cannot be carried out. -/
inductive SessionError
  | unknownConfig (name : String)
  | unknownMatcher (name : String)
  | unknownPool (name : String)
  /-- The step budget did not suffice for a match. -/
  | unfinished
  deriving DecidableEq

namespace Session

/-- A session that holds nothing. -/
def empty : Session := ⟨initialLimit, [], [], #[], []⟩

/-- The configuration that a source stands for at present. -/
def configOf (s : Session) : ConfigSource → Except SessionError Config
  | .named name =>
    match s.configs.find? name with
    | some c => .ok c
    | none => .error (.unknownConfig name)
  | .settings changes => .ok ((Config.ofLimit s.limit).applyAll changes)

/-- The matcher under a name. -/
def holding (s : Session) (name : String) : Except SessionError Holding :=
  match s.holdings.find? name with
  | some h => .ok h
  | none => .error (.unknownMatcher name)

/-- The pool under a name, and its number. -/
def pool (s : Session) (name : String) : Except SessionError (Nat × Pool) :=
  match s.poolNumbers.find? name with
  | none => .error (.unknownPool name)
  | some n =>
    match s.pools[n]? with
    | none => .error (.unknownPool name)
    | some p => .ok (n, p)

/-- Gives a matcher back if it is on loan. Nothing is left in its place that could be used again. -/
def release (s : Session) : Option Holding → Session
  | some ⟨m, some n⟩ => { s with pools := s.pools.modify n (·.give m) }
  | _ => s

/-- Puts a matcher under a name, and then gives back the one that it replaces. -/
def hold (s : Session) (name : String) (h : Holding) : Session :=
  { s with holdings := s.holdings.insert name h }.release (s.holdings.find? name)

/-- Changes the matcher under a name. A matcher on loan stays on loan. -/
def overwrite (s : Session) (name : String) (h : Holding) (m : Matcher) : Session :=
  { s with holdings := s.holdings.insert name { h with matcher := m } }

/-- Frees a name, and gives the matcher back if it is on loan. -/
def drop (s : Session) (name : String) : Session :=
  { s with holdings := s.holdings.erase name }.release (s.holdings.find? name)

end Session

end PatternVM
