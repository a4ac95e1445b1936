import Mathlib.Order.Bounds.Basic
import Mathlib.Tactic.Common
import PatternVM.Matcher.Pool

/-!
# Lending

What a pool does with its matchers, whatever its clients do in whatever order: they take matchers on loan, match
with them, put others in their place, give them back, and let the pool match by itself.

All that passes between a pool and its clients is that matchers are lent and returned. The history of these
transfers determines the rest (`Lending.accounts_of_run`). The pool has as many matchers, idle or on loan, as were
ever on loan together; the idle ones are those that were returned and not lent again; and what is lent is the one
of them that was returned last, exactly as it came back, or a new one if there is none.
-/

namespace PatternVM

/-- A matcher passes from the pool to a client, or back. -/
inductive Transfer
  | lent (m : Matcher)
  | returned (m : Matcher)

namespace Transfer

/-- Whether a matcher was lent. -/
def isLent : Transfer → Bool
  | lent _ => true
  | returned _ => false

/-- Whether a matcher came back. -/
def isReturned : Transfer → Bool
  | lent _ => false
  | returned _ => true

/-- The number of matchers on loan after some transfers. -/
def onLoan (history : List Transfer) : Nat := history.countP isLent - history.countP isReturned

/-- The matchers that were returned and not lent again, the last one to come back in front. The transfers are
read from the latest to the earliest: each lending takes the nearest return in front of it that no other one has
taken, and `claims` lendings have still to find theirs. -/
def unclaimedFrom : Nat → List Transfer → List Matcher
  | _, [] => []
  | claims, lent _ :: earlier => unclaimedFrom (claims + 1) earlier
  | 0, returned m :: earlier => m :: unclaimedFrom 0 earlier
  | claims + 1, returned _ :: earlier => unclaimedFrom claims earlier

/-- The matchers that have come back and have not been lent since, the one that came back last in front. -/
def unclaimed (history : List Transfer) : List Matcher := unclaimedFrom 0 history.reverse

end Transfer

/-- A pool, and the matchers that it has on loan. -/
structure Lending where
  pool : Pool
  loans : List Matcher

namespace Lending

/-- What clients do with a pool, and the transfers that come of it. -/
inductive Step : Lending → List Transfer → Lending → Prop where
  | take {pool loans} :
    Step ⟨pool, loans⟩ [.lent pool.take.1] ⟨pool.take.2, pool.take.1 :: loans⟩
  | give {pool loans i m} :
    loans[i]? = some m →
    Step ⟨pool, loans⟩ [.returned m] ⟨pool.give m, loans.eraseIdx i⟩
  | replace {pool loans i m} (m' : Matcher) :
    loans[i]? = some m →
    Step ⟨pool, loans⟩ [] ⟨pool, loans.set i m'⟩
  | test {pool loans i m budget p text o} :
    loans[i]? = some m →
    m.test budget p text = some o →
    Step ⟨pool, loans⟩ [] ⟨pool, loans.set i o.matcher⟩
  | testPooled {pool loans budget p text o verdict log pool'} :
    pool.take.1.test budget p text = some o →
    pool.test budget p text = some (verdict, log, pool') →
    Step ⟨pool, loans⟩ [.lent pool.take.1, .returned o.matcher] ⟨pool', loans⟩

/-- What clients have done since the pool was opened. -/
inductive Run (template : Config) : List Transfer → Lending → Prop where
  | opened :
    Run template [] ⟨.ofTemplate template, []⟩
  | step {history transfers s s'} :
    Run template history s →
    Step s transfers s' →
    Run template (history ++ transfers) s'

end Lending

namespace Transfer

variable {history : List Transfer} {m : Matcher}

/-- Lendings that have still to find their returns take the newest of them. -/
lemma unclaimedFrom_eq_drop (claims : Nat) (history : List Transfer) :
    unclaimedFrom claims history = (unclaimedFrom 0 history).drop claims := by
  induction history generalizing claims with
  | nil => exact (List.drop_nil ..).symm
  | cons transfer earlier ih =>
    cases transfer with
    | lent m =>
      rw [unclaimedFrom, unclaimedFrom, ih (claims + 1), ih 1, List.drop_drop, Nat.add_comm]
    | returned m =>
      cases claims with
      | zero => rfl
      | succ claims => exact ih claims

/-- Lending takes the newest of the matchers that have come back. -/
@[simp] lemma unclaimed_lent : unclaimed (history ++ [.lent m]) = (unclaimed history).tail := by
  rw [unclaimed, List.reverse_concat, unclaimedFrom, unclaimedFrom_eq_drop, List.drop_one, unclaimed]

/-- A matcher that comes back is the newest of those that have. -/
@[simp] lemma unclaimed_returned : unclaimed (history ++ [.returned m]) = m :: unclaimed history := by
  rw [unclaimed, List.reverse_concat, unclaimedFrom, unclaimed]

/-- The greatest number on loan stays what it is, or becomes the number on loan now. -/
lemma isGreatest_onLoan_concat {t : Transfer} {k k' : Nat}
    (h : IsGreatest {n | ∃ early, early <+: history ∧ onLoan early = n} k) (le : k ≤ k')
    (now_le : onLoan (history ++ [t]) ≤ k') (reached : k' = k ∨ k' = onLoan (history ++ [t])) :
    IsGreatest {n | ∃ early, early <+: history ++ [t] ∧ onLoan early = n} k' := by
  constructor
  · obtain rfl | rfl := reached
    · obtain ⟨early, isPre, eq⟩ := h.1
      exact ⟨early, isPre.trans (List.prefix_append ..), eq⟩
    · exact ⟨_, List.prefix_rfl, rfl⟩
  · rintro n ⟨early, isPre, rfl⟩
    obtain rfl | isPre := List.prefix_concat_iff.mp isPre
    · exact now_le
    · exact Nat.le_trans (h.2 ⟨early, isPre, rfl⟩) le

/-- A lending is the latest transfer, or it was there before that one. -/
lemma lent_of_concat {t : Transfer} {earlier later : List Transfer}
    (h : history ++ [t] = earlier ++ .lent m :: later) :
    (earlier = history ∧ t = .lent m) ∨ ∃ later', history = earlier ++ .lent m :: later' := by
  obtain rfl | ⟨later', last, eq⟩ := List.eq_nil_or_concat later
  · obtain ⟨rfl, last_eq⟩ := List.append_inj' h rfl
    exact .inl ⟨rfl, List.singleton_inj.mp last_eq⟩
  · rw [eq, List.concat_eq_append, ← List.cons_append, ← List.append_assoc] at h
    exact .inr ⟨later', (List.append_inj' h rfl).1⟩

end Transfer

namespace Lending

open Transfer

/-- How a pool and its loans stand to the transfers so far. -/
structure Accounts (template : Config) (history : List Transfer) (s : Lending) : Prop where
  template_eq : s.pool.template = template
  idle_eq : s.pool.idle = unclaimed history
  lent_eq : history.countP isLent = history.countP isReturned + s.loans.length
  most : IsGreatest {n | ∃ early, early <+: history ∧ onLoan early = n} (s.pool.idle.length + s.loans.length)
  newest_first : ∀ earlier m later, history = earlier ++ .lent m :: later →
    (unclaimed earlier).head? = some m ∨ unclaimed earlier = [] ∧ m = .ofConfig template

/-- The number of matchers, idle or on loan. -/
def total (s : Lending) : Nat := s.pool.idle.length + s.loans.length

variable {template : Config} {history transfers : List Transfer} {s s' : Lending} {pool : Pool}
variable {loans loans' : List Matcher} {m : Matcher} {i : Nat}

/-- As many matchers are on loan as there are loans. -/
lemma Accounts.onLoan_eq (h : Accounts template history s) : onLoan history = s.loans.length := by
  rw [onLoan, h.lent_eq, Nat.add_sub_cancel_left]

/-- The accounts are carried on over one more transfer. The number of matchers does not go down with it, and it
goes up only to the number of those that are on loan now. -/
lemma Accounts.concat {t : Transfer} (h : Accounts template history s) (template_eq : s'.pool.template = template)
    (idle_eq : s'.pool.idle = unclaimed (history ++ [t]))
    (lent_eq : (history ++ [t]).countP isLent = (history ++ [t]).countP isReturned + s'.loans.length)
    (le : s.total ≤ s'.total) (reached : s'.total = s.total ∨ s'.total = s'.loans.length)
    (newest : ∀ m, t = .lent m →
      (unclaimed history).head? = some m ∨ unclaimed history = [] ∧ m = .ofConfig template) :
    Accounts template (history ++ [t]) s' := by
  have onLoan_eq : onLoan (history ++ [t]) = s'.loans.length := by
    rw [onLoan, lent_eq, Nat.add_sub_cancel_left]
  refine ⟨template_eq, idle_eq, lent_eq, isGreatest_onLoan_concat h.most le ?_ ?_, fun earlier m later eq => ?_⟩
  · rw [onLoan_eq]
    exact Nat.le_add_left ..
  · rw [onLoan_eq]
    exact reached
  · obtain ⟨rfl, last⟩ | ⟨later', eq'⟩ := lent_of_concat eq
    · exact newest m last
    · exact h.newest_first earlier m later' eq'

/-- A new pool has lent nothing. -/
lemma Accounts.opened (template : Config) : Accounts template [] ⟨.ofTemplate template, []⟩ where
  template_eq := rfl
  idle_eq := rfl
  lent_eq := rfl
  most := by
    refine ⟨⟨[], List.prefix_rfl, rfl⟩, ?_⟩
    rintro n ⟨early, isPre, rfl⟩
    rw [List.prefix_nil.mp isPre]
    exact Nat.le_refl _
  newest_first earlier m later eq := by simp at eq

/-- Nothing passes when clients change the matchers that they have on loan. -/
lemma Accounts.keep (h : Accounts template history ⟨pool, loans⟩) (same : loans'.length = loans.length) :
    Accounts template history ⟨pool, loans'⟩ where
  template_eq := h.template_eq
  idle_eq := h.idle_eq
  lent_eq := by
    rw [h.lent_eq, same]
  most := by
    rw [same]
    exact h.most
  newest_first := h.newest_first

/-- The accounts are kept when a matcher is lent. -/
lemma Accounts.take (h : Accounts template history ⟨pool, loans⟩) :
    Accounts template (history ++ [.lent pool.take.1]) ⟨pool.take.2, pool.take.1 :: loans⟩ := by
  have lent_eq : (history ++ [Transfer.lent pool.take.1]).countP isLent =
      (history ++ [Transfer.lent pool.take.1]).countP isReturned + (pool.take.1 :: loans).length := by
    rw [List.countP_append, List.countP_append, h.lent_eq]
    exact Nat.add_assoc ..
  obtain ⟨idle, own⟩ := pool
  obtain rfl : own = template := h.template_eq
  have idle_eq : idle = unclaimed history := h.idle_eq
  cases idle with
  | nil =>
    -- all matchers are on loan, and now there is one more of them
    refine h.concat rfl ?_ lent_eq (Nat.le_succ _) (.inr (Nat.zero_add _)) fun m eq => ?_
    · rw [unclaimed_lent, ← idle_eq]
      rfl
    · cases eq
      exact .inr ⟨idle_eq.symm, rfl⟩
  | cons newest rest =>
    have same : (Lending.mk ⟨rest, own⟩ (newest :: loans)).total =
        (Lending.mk ⟨newest :: rest, own⟩ loans).total := by
      simp only [total, List.length_cons]
      omega
    refine h.concat rfl ?_ lent_eq (Nat.le_of_eq same.symm) (.inl same) fun m eq => ?_
    · rw [unclaimed_lent, ← idle_eq]
      rfl
    · cases eq
      rw [← idle_eq]
      exact .inl rfl

/-- The accounts are kept when a matcher comes back. -/
lemma Accounts.give (h : Accounts template history ⟨pool, loans⟩) (loan : loans[i]? = some m) :
    Accounts template (history ++ [.returned m]) ⟨pool.give m, loans.eraseIdx i⟩ := by
  obtain ⟨lt, _⟩ := List.getElem?_eq_some_iff.mp loan
  have fewer : (loans.eraseIdx i).length + 1 = loans.length := by
    rw [List.length_eraseIdx_of_lt lt]
    omega
  have same : (Lending.mk (pool.give m) (loans.eraseIdx i)).total = (Lending.mk pool loans).total := by
    simp only [total, Pool.give, List.length_cons]
    omega
  refine h.concat h.template_eq ?_ ?_ (Nat.le_of_eq same.symm) (.inl same) nofun
  · rw [unclaimed_returned, ← h.idle_eq]
    rfl
  · rw [List.countP_append, List.countP_append, h.lent_eq, ← fewer, Nat.add_comm _ 1, ← Nat.add_assoc]
    rfl

/-- Whatever a client does keeps the accounts. -/
lemma Step.accounts (step : Step s transfers s') (h : Accounts template history s) :
    Accounts template (history ++ transfers) s' := by
  cases step with
  | take => exact h.take
  | give loan => exact h.give loan
  | replace m' loan =>
    rw [List.append_nil]
    exact h.keep (List.length_set ..)
  | test loan test =>
    rw [List.append_nil]
    exact h.keep (List.length_set ..)
  | @testPooled pool loans budget p text o verdict log pool' test pooled =>
    obtain ⟨o', test', eq⟩ := Pool.test_eq_some_iff.mp pooled
    obtain rfl : o = o' := Option.some.inj (test.symm.trans test')
    cases eq
    rw [List.append_cons]
    have matched : Accounts template (history ++ [.lent pool.take.1]) ⟨pool.take.2, o.matcher :: loans⟩ :=
      h.take.keep rfl
    exact matched.give (i := 0) rfl

/-- The accounts are right after everything that clients have done. -/
lemma Run.accounts (run : Run template history s) : Accounts template history s := by
  induction run with
  | opened => exact .opened template
  | step _ step ih => exact step.accounts ih

/-- Whatever its clients do, a pool has as many matchers, idle or on loan, as were ever on loan together. The idle
ones are those that were returned and not lent again, the last one to come back in front. What it lends is the
foremost of them, as it came back, and a new one made from the template only if there is none. -/
theorem accounts_of_run (run : Run template history s) :
    s.loans.length = onLoan history ∧
      IsGreatest {n | ∃ early, early <+: history ∧ onLoan early = n} (s.pool.idle.length + s.loans.length) ∧
      s.pool.idle = unclaimed history ∧
      ∀ earlier m later, history = earlier ++ .lent m :: later →
        (unclaimed earlier).head? = some m ∨ unclaimed earlier = [] ∧ m = .ofConfig template := by
  have accounts := run.accounts
  exact ⟨accounts.onLoan_eq.symm, accounts.most, accounts.idle_eq, accounts.newest_first⟩

/-- Of two matchers on loan the one that was lent first is replaced and goes back. The pool matches with it, and
then lends it again, with the counters of that match. -/
theorem accounts_of_run_replaced :
    let p : Program := ⟨#[.literal [97] false, .textEnd, .accept], #[]⟩
    let m := Matcher.ofConfig ⟨7, .trace⟩
    ∃ o history s, m.test 10 p #[97, 97] = some o ∧ o.matcher.stats.backtracks = 1 ∧ Run ⟨2, .none⟩ history s ∧
      s.loans = [o.matcher, .ofConfig ⟨2, .none⟩] ∧ s.pool.idle = [] ∧
      IsGreatest {n | ∃ early, early <+: history ∧ onLoan early = n} 2 := by
  intro p m
  have found : (m.test 10 p #[97, 97]).map (·.matcher.stats.backtracks) = some 1 := by decide +kernel
  obtain ⟨o, test, backtracks⟩ := Option.map_eq_some_iff.mp found
  have pooled : (Pool.mk [m] ⟨2, .none⟩).test 10 p #[97, 97] =
      some (o.verdict, o.log, ⟨[o.matcher], ⟨2, .none⟩⟩) :=
    Pool.test_eq_some_iff.mpr ⟨o, test, rfl⟩
  have both := ((@Run.opened ⟨2, .none⟩).step .take).step .take
  have replaced := both.step (.replace (i := 1) m rfl)
  have given : Run ⟨2, .none⟩ _ ⟨⟨[m], ⟨2, .none⟩⟩, [.ofConfig ⟨2, .none⟩]⟩ := replaced.step (.give (i := 1) rfl)
  have run := (given.step (.testPooled test pooled)).step .take
  obtain ⟨_, most, _, _⟩ := accounts_of_run run
  exact ⟨o, _, _, test, backtracks, run, rfl, rfl, most⟩

end Lending

end PatternVM
