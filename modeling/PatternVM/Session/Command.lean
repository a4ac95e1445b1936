import PatternVM.Session.Basic

/-!
# Commands

What a session can be told to do, and what it replies. Every match is given a number of steps that it must
not exceed; a command whose match exceeds it is not carried out.
-/

namespace PatternVM

/-- One command to a session. -/
inductive Command
  /-- Sets the limit for what is made from now on. -/
  | setLimit (n : Nat)
  /-- Asks for that limit. -/
  | limit
  /-- Makes a configuration out of the session's limit and some settings. -/
  | configure (name : String) (changes : List Setting)
  /-- Makes a configuration out of the one under another name and some further settings. -/
  | reconfigure (name source : String) (changes : List Setting)
  /-- Makes a matcher. -/
  | create (name : String) (source : ConfigSource)
  /-- Makes a matcher in place of the one under a name, which stays on loan if it was. -/
  | recreate (name : String) (source : ConfigSource)
  /-- Asks for the configuration and the counters of a matcher. -/
  | info (name : String)
  /-- Lets a matcher match a program against a text. -/
  | test (name : String) (p : Program) (text : Text)
  /-- Lets a fresh matcher match a program against a text. -/
  | testOnce (p : Program) (text : Text)
  /-- Makes a pool. -/
  | openPool (pool : String) (source : ConfigSource)
  /-- Takes a matcher on loan. -/
  | borrow (pool name : String)
  /-- Lets a matcher of a pool match a program against a text. -/
  | testPooled (pool : String) (p : Program) (text : Text)
  /-- Asks for the number of idle matchers of a pool. -/
  | idle (pool : String)
  /-- Lets go of a matcher. -/
  | drop (name : String)

/-- What a session replies. -/
inductive Reply
  | done
  | number (n : Nat)
  | info (config : Config) (stats : Stats)
  | tested (verdict : Verdict) (stats : Stats)
  | verdict (verdict : Verdict)

namespace Session

/-- The outcome of a match that has kept to its budget. -/
def finished {α : Type} : Option α → Except SessionError α
  | some o => .ok o
  | none => .error .unfinished

/-- Carries out a command: the reply, what was reported meanwhile, and the session afterwards. -/
def exec (s : Session) (budget : Nat) : Command → Except SessionError (Reply × Log × Session)
  | .setLimit n => .ok (.number n, #[], { s with limit := n })
  | .limit => .ok (.number s.limit, #[], s)
  | .configure name changes => do
    let c ← s.configOf (.settings changes)
    return (.done, #[], { s with configs := s.configs.insert name c })
  | .reconfigure name source changes => do
    let c ← s.configOf (.named source)
    return (.done, #[], { s with configs := s.configs.insert name (c.applyAll changes) })
  | .create name source => do
    let c ← s.configOf source
    return (.done, #[], s.hold name ⟨.ofConfig c, none⟩)
  | .recreate name source => do
    let c ← s.configOf source
    let h ← s.holding name
    return (.done, #[], s.overwrite name h (.ofConfig c))
  | .info name => do
    let h ← s.holding name
    return (.info h.matcher.config h.matcher.stats, #[], s)
  | .test name p text => do
    let h ← s.holding name
    let o ← finished (h.matcher.test budget p text)
    return (.tested o.verdict o.matcher.stats, o.log, s.overwrite name h o.matcher)
  | .testOnce p text => do
    let c ← s.configOf (.settings [])
    let o ← finished ((Matcher.ofConfig c).test budget p text)
    return (.verdict o.verdict, o.log, s)
  | .openPool pool source => do
    let c ← s.configOf source
    return (.done, #[],
      { s with
        pools := s.pools.push (.ofTemplate c)
        poolNumbers := s.poolNumbers.insert pool s.pools.size })
  | .borrow pool name => do
    let (n, p) ← s.pool pool
    let (m, p) := p.take
    let s := { s with pools := s.pools.setIfInBounds n p }.hold name ⟨m, some n⟩
    let (_, p) ← s.pool pool
    return (.number p.idle.length, #[], s)
  | .testPooled pool program text => do
    let (n, p) ← s.pool pool
    let (verdict, log, p) ← finished (p.test budget program text)
    return (.verdict verdict, log, { s with pools := s.pools.setIfInBounds n p })
  | .idle pool => do
    let (_, p) ← s.pool pool
    return (.number p.idle.length, #[], s)
  | .drop name => do
    let _ ← s.holding name
    return (.done, #[], s.drop name)

end Session

end PatternVM
