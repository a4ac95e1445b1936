import PatternVM.Machine.Run
import PatternVM.Matcher.Config

/-!
# Matchers

A matcher keeps the storage of its stacks, its options and the counters of its last match. A program that
only asks for a literal is answered by a search of the text, without running it, unless the option
`noFastPath` is set.
-/

namespace PatternVM

/-- The counters of a match: steps performed, failures that led back to an alternative, greatest number of
choice points, and whether the program was answered without running it. -/
structure Stats where
  steps : Nat
  backtracks : Nat
  peak : Nat
  fastPath : Bool
  deriving DecidableEq

namespace Stats

/-- The counters before any match. -/
def zero : Stats := ⟨0, 0, 0, false⟩

/-- The counters of a program that was answered without running it. -/
def ofFastPath : Stats := ⟨0, 0, 0, true⟩

end Stats

/-- Something that matches programs against texts, one match at a time. -/
structure Matcher where
  choices : ChoiceStack
  marks : MarkStack
  options : Options
  stats : Stats

/-- The counters of a state. -/
def State.stats (s : State) : Stats := ⟨s.steps, s.backtracks, s.choices.peak, false⟩

/-- The report of a run that has ended with `verdict` in the state `s`. -/
def Event.ofVerdict (s : State) : Verdict → Event
  | .ok found => .answered found s.steps s.backtracks s.choices.peak
  | .error fault => .stopped fault

/-- What a match yields: its verdict, what it reported, and the matcher afterwards. -/
structure Outcome where
  verdict : Verdict
  log : Log
  matcher : Matcher

namespace Matcher

/-- A matcher without storage. -/
def ofConfig (c : Config) : Matcher := ⟨.ofLimit c.limit, .empty, c.options, .zero⟩

/-- The limit for choice points. -/
def limit (m : Matcher) : Nat := m.choices.limit

/-- The configuration that a matcher has. -/
def config (m : Matcher) : Config := ⟨m.limit, m.options⟩

/-- Answers a program that only asks for the literal `bytes`. -/
def scan (m : Matcher) (bytes : List UInt8) (text : Text) : Outcome :=
  let found := (text.find? bytes 0).isSome
  { verdict := .ok found
    log := #[.scanned bytes.length text.size found]
    matcher := { m with stats := .ofFastPath } }

/-- Runs a program for at most `budget` steps. -/
def run (m : Matcher) (budget : Nat) (p : Program) (text : Text) : Option Outcome :=
  let search : Search := ⟨p, text, m.options.has .trace⟩
  (search.run budget (.start m.choices m.marks)).map fun (verdict, s) =>
    { verdict
      log := s.log.push (.ofVerdict s verdict)
      matcher := { m with choices := s.choices, marks := s.marks, stats := s.stats } }

/-- The literal that decides the match alone, if the program asks for no more and the options let it. -/
def fastPath? (m : Matcher) (p : Program) : Option (List UInt8) :=
  if m.options.has .noFastPath then none else p.soleLiteral?

/-- Whether `p` matches anywhere in `text`; yields nothing if `budget` steps do not decide it. -/
def test (m : Matcher) (budget : Nat) (p : Program) (text : Text) : Option Outcome :=
  match m.fastPath? p with
  | some bytes => some (m.scan bytes text)
  | none => m.run budget p text

/-- One match after another on the same matcher, each with the same budget. -/
def testAll (m : Matcher) (budget : Nat) : List (Program × Text) → Option (List Outcome)
  | [] => some []
  | (p, text) :: rest => do
    let o ← m.test budget p text
    let later ← o.matcher.testAll budget rest
    return o :: later

end Matcher

end PatternVM
