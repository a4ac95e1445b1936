import PatternVM.Matcher.Basic

/-!
# Pools of matchers

A pool lends matchers out and takes them back, so that their storage is used again. The matcher that came
back last is lent first; a new one is made from the template only if none is idle.
-/

namespace PatternVM

/-- Idle matchers, the one that came back last in front, and what new ones are made from. -/
structure Pool where
  idle : List Matcher
  template : Config

namespace Pool

/-- A pool without matchers. -/
def ofTemplate (template : Config) : Pool := ⟨[], template⟩

/-- Lends a matcher. -/
def take (pool : Pool) : Matcher × Pool :=
  match pool.idle with
  | m :: rest => (m, { pool with idle := rest })
  | [] => (.ofConfig pool.template, pool)

/-- Takes a matcher back as it is. The client is left without one: whatever may stand in its place until it is gone
takes no part in any match. -/
def give (pool : Pool) (m : Matcher) : Pool := { pool with idle := m :: pool.idle }

/-- Lends a matcher for one match and takes it back. -/
def test (pool : Pool) (budget : Nat) (p : Program) (text : Text) :
    Option (Verdict × Log × Pool) :=
  let (m, pool) := pool.take
  (m.test budget p text).map fun o => (o.verdict, o.log, pool.give o.matcher)

/-- When a pool matches by itself, it is as if a client took a matcher, matched with it and gave it back. -/
theorem test_eq_some_iff {pool : Pool} {budget : Nat} {p : Program} {text : Text} {r : Verdict × Log × Pool} :
    pool.test budget p text = some r ↔
      ∃ o, pool.take.1.test budget p text = some o ∧ r = (o.verdict, o.log, pool.take.2.give o.matcher) := by
  rw [test, Option.map_eq_some_iff]
  exact exists_congr fun o => and_congr_right fun _ => eq_comm

end Pool

end PatternVM
