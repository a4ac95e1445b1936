import Mathlib.Data.Nat.Find
import PatternVM.Proofs.Text.Guarded

/-!
# The scan for a literal

The search for a literal once more, by the length of the literal, and with a search for one byte as a parameter,
of which nothing but `FindsByte` is used. Every access is guarded: a scan yields nothing as soon as a byte or a
slice is read that is not in the text, or a difference is below zero; to find nothing is an answer of its own.
No scan fails, and its answer is the one of `Text.find?`: the first occurrence, unless the literal is empty.
A scan from a later start looks at the rest of the text only and adds the start to what it finds.
-/

namespace PatternVM

variable {text : Text} {lit rest : List UInt8} {first : UInt8} {i q start stop width : Nat}
  {seek : UInt8 → List UInt8 → Option Nat}

/-- There is one first position only. -/
lemma FirstFrom.unique {P : Nat → Prop} {q' : Nat} (one : FirstFrom P start q) (other : FirstFrom P start q') :
    q = q' := by
  rcases Nat.lt_trichotomy q q' with lt | eq | gt
  · exact absurd one.holds (other.least q one.le lt)
  · exact eq
  · exact absurd other.holds (one.least q' other.le gt)

/-- Where there is a place at all there is a first one. -/
lemma FirstFrom.exists {P : Nat → Prop} (le : start ≤ i) (holds : P i) : ∃ q, FirstFrom P start q := by
  classical
  have some_place : ∃ j, start ≤ j ∧ P j := ⟨i, le, holds⟩
  obtain ⟨le', holds'⟩ := Nat.find_spec some_place
  exact ⟨Nat.find some_place, le', holds', fun j lej lt at_j => Nat.find_min some_place lt ⟨lej, at_j⟩⟩

/-- A first place counted from the start on is a first place counted from 0. -/
lemma FirstFrom.shift {P : Nat → Prop} : FirstFrom (fun j => P (start + j)) 0 i ↔ FirstFrom P start (start + i) := by
  constructor
  · rintro ⟨-, holds, least⟩
    refine ⟨Nat.le_add_right .., holds, fun j le lt => ?_⟩
    obtain ⟨k, rfl⟩ := Nat.exists_eq_add_of_le le
    exact least k (Nat.zero_le k) (Nat.lt_of_add_lt_add_left lt)
  · rintro ⟨-, holds, least⟩
    exact ⟨Nat.zero_le i, holds, fun j _ lt => least (start + j) (Nat.le_add_right ..) (Nat.add_lt_add_left lt start)⟩

/-- What is taken away from a number is not greater than the number. -/
lemma le_of_difference? {a b d : Nat} (e : difference? a b = some d) : b ≤ a := by
  by_contra lt
  rw [difference?, if_neg lt] at e
  cases e

namespace Text

/-- A search for one byte yields the index of the first such byte, if there is one. -/
def FindsByte (seek : UInt8 → List UInt8 → Option Nat) : Prop :=
  ∀ b bytes, seek b bytes = bytes.findIdx? (· == b)

/-- The bytes from `i` on and before `stop`. -/
def slice? (text : Text) (i stop : Nat) : Option (List UInt8) :=
  if i ≤ stop ∧ stop ≤ text.size then some ((text.toList.take stop).drop i) else none

/-- The loop of a scan for a literal of `width` bytes. As long as there is room for it, the first byte is looked
for from `i` on and before `stop?`, and `follows?` compares the bytes behind a candidate. -/
def scanLoop? (seek : UInt8 → List UInt8 → Option Nat) (text : Text) (first : UInt8) (width : Nat)
    (stop? : Option Nat) (follows? : Nat → Option Bool) (i : Nat) : Option (Option Nat) :=
  match _ : difference? text.size i with
  | none => none
  | some room =>
    if room < width then
      some none
    else do
      let stop ← stop?
      let stretch ← text.slice? i stop
      match seek first stretch with
      | none => return none
      | some k =>
        let found ← follows? (i + k)
        if found then return some (i + k) else scanLoop? seek text first width stop? follows? (i + k + 1)
termination_by text.size + 1 - i
decreasing_by
  have le := le_of_difference? ‹_›
  omega

/-- The scan for a literal. A single byte is searched for in all of the text. Behind the first byte of two there
stands one byte, which is compared by itself, and behind the first of more there stands a slice. -/
def scan? (seek : UInt8 → List UInt8 → Option Nat) (text : Text) : List UInt8 → Option (Option Nat)
  | [] => some none
  | [b] => some (seek b text.toList)
  | [first, second] =>
    scanLoop? seek text first 2 (difference? text.size 1) (fun i => do
      let b ← text[i + 1]?
      return b == second) 0
  | first :: rest =>
    let width := rest.length + 1
    scanLoop? seek text first width ((difference? text.size width).map (· + 1)) (fun i => do
      let bytes ← text.slice? (i + 1) (i + width)
      return bytes == rest) 0

/-- The scan from a start. Behind the end of the text there is nothing to be found. -/
def scanFrom? (seek : UInt8 → List UInt8 → Option Nat) (text : Text) (lit : List UInt8) (start : Nat) :
    Option (Option Nat) :=
  match text.from? start with
  | none => some none
  | some tail => do
    let found ← scan? seek tail.toArray lit
    return found.map (· + start)

/-- What the answer of a search from a start has to be. -/
structure Answers (text : Text) (lit : List UInt8) (start : Nat) (r : Option Nat) : Prop where
  found : ∀ i, r = some i ↔ lit ≠ [] ∧ FirstFrom (lit <+: text.toList.drop ·) start i
  missed : r = none ↔ lit = [] ∨ ∀ i, start ≤ i → ¬ lit <+: text.toList.drop i

/-- The text can be sliced between two of its positions. -/
lemma slice?_of_le (le : i ≤ stop) (within : stop ≤ text.size) :
    text.slice? i stop = some ((text.toList.take stop).drop i) := if_pos ⟨le, within⟩

/-- The stretch and the comparison of a scan fit a literal with `rest` behind its first byte: the stretch ends
where the room for all of the literal does, and the comparison is with `rest`, wherever there is room for it. -/
structure Suits (text : Text) (rest : List UInt8) (stop? : Option Nat) (follows? : Nat → Option Bool) : Prop where
  stop : rest.length < text.size → stop? = some (text.size - rest.length)
  follows : ∀ j, j + rest.length < text.size → follows? j = some (text.occursAt (j + 1) rest)

section Loop

variable {stop? : Option Nat} {follows? : Nat → Option Bool}

/-- Without room for the literal the loop ends. -/
lemma scanLoop?_of_full (within : i ≤ text.size) (full : text.size < i + width) :
    scanLoop? seek text first width stop? follows? i = some none := by
  rw [scanLoop?, difference?_of_le within]
  simp only
  rw [if_pos (by omega)]

/-- One round: the first byte is looked for, and if the rest does not follow it, the loop goes on one position
past it. -/
lemma scanLoop?_of_room (finds : FindsByte seek) (suits : Suits text rest stop? follows?)
    (room : i + rest.length < text.size) :
    scanLoop? seek text first (rest.length + 1) stop? follows? i =
      match text.firstByte? (· == first) i (text.size - rest.length) with
      | none => some none
      | some q =>
        if text.occursAt (q + 1) rest then some (some q)
        else scanLoop? seek text first (rest.length + 1) stop? follows? (q + 1) := by
  have within : text.size - rest.length ≤ text.size := Nat.sub_le ..
  have shifted : (((text.toList.take (text.size - rest.length)).drop i).findIdx? (· == first)).map (i + ·) =
      text.firstByte? (· == first) i (text.size - rest.length) := findIdx?_slice within
  rw [scanLoop?, difference?_of_le (by omega)]
  simp only
  rw [if_neg (by omega), suits.stop (by omega)]
  simp only [Option.bind_eq_bind, Option.bind_some]
  rw [slice?_of_le (by omega) within, Option.bind_some, finds]
  cases here : ((text.toList.take (text.size - rest.length)).drop i).findIdx? (· == first) with
  | none =>
    rw [here] at shifted
    rw [← shifted]
    rfl
  | some k =>
    rw [here, Option.map_some] at shifted
    have before := (firstByte?_bounds shifted.symm).2
    rw [← shifted]
    simp only
    rw [suits.follows (i + k) (by omega), Option.bind_some]
    rfl

/-- The loop yields the first place in the stretch where the literal stands. -/
lemma scanLoop?_eq (finds : FindsByte seek) (suits : Suits text rest stop? follows?) (within : i ≤ text.size) :
    scanLoop? seek text first (rest.length + 1) stop? follows? i =
      some (text.findWithin? first rest i (text.size - rest.length)) := by
  -- a round of the scan is a round of the search, so the cases are those of the search
  fun_induction findWithin? text first rest i (text.size - rest.length) with
  | case1 i missed =>
    rcases Nat.lt_or_ge (i + rest.length) text.size with room | full
    · rw [scanLoop?_of_room finds suits room, missed]
    · exact scanLoop?_of_full within (by omega)
  | case2 i q found occurs =>
    have bounds := firstByte?_bounds found
    rw [scanLoop?_of_room finds suits (by omega), found]
    exact if_pos occurs
  | case3 i q found fails ih =>
    have bounds := firstByte?_bounds found
    rw [scanLoop?_of_room finds suits (by omega), found]
    simp only
    rw [if_neg fails, ih (by omega)]

end Loop

/-- For a literal of two bytes, the stretch up to the last byte and a comparison of one byte fit. -/
lemma suits_byte {second : UInt8} : Suits text [second] (difference? text.size 1) (fun i => do
    let b ← text[i + 1]?
    return b == second) where
  stop room := difference?_of_le (Nat.le_of_lt room)
  follows j room := by
    have at_next : text[j + 1]? = some text[j + 1] := Array.getElem?_eq_getElem room
    rw [at_next, occursAt, occursAt, at_next, Bool.and_true]
    rfl

/-- For a longer literal, the stretch up to its last start and a comparison of slices fit. -/
lemma suits_slice : Suits text rest ((difference? text.size (rest.length + 1)).map (· + 1)) (fun i => do
    let bytes ← text.slice? (i + 1) (i + (rest.length + 1))
    return bytes == rest) where
  stop room := by
    rw [difference?_of_le room, Option.map_some]
    exact congrArg some (by omega)
  follows j room := by
    rw [slice?_of_le (by omega) (by omega)]
    refine congrArg some (Bool.eq_iff_iff.mpr ?_)
    rw [beq_iff_eq, occursAt_iff, List.prefix_iff_eq_take, List.drop_take,
      show j + (rest.length + 1) - (j + 1) = rest.length by omega]
    exact eq_comm

/-- Nothing has to follow a literal of one byte. -/
lemma findWithin?_nil : text.findWithin? first [] i stop = text.firstByte? (· == first) i stop := by
  rw [findWithin?]
  cases text.firstByte? (· == first) i stop with
  | none => rfl
  | some q => rfl

/-- The scan for a literal ends within the text and finds what `find?` finds. -/
lemma scan?_eq (finds : FindsByte seek) : scan? seek text lit = some (text.find? lit 0) := by
  match lit with
  | [] => rfl
  | [b] =>
    have whole : ((text.toList.drop 0).findIdx? (· == b)).map (0 + ·) = text.firstByte? (· == b) 0 text.size :=
      findIdx?_drop
    rw [scan?, finds, find?, findWithin?_nil]
    simpa using whole
  | [first, second] => exact scanLoop?_eq finds suits_byte (Nat.zero_le _)
  | first :: second :: third :: rest => exact scanLoop?_eq finds suits_slice (Nat.zero_le _)

/-- Whether there is an answer follows from which one it is, since some place means a first one. -/
lemma Answers.of_found {r : Option Nat}
    (found : ∀ i, r = some i ↔ lit ≠ [] ∧ FirstFrom (lit <+: text.toList.drop ·) start i) :
    text.Answers lit start r where
  found := found
  missed := by
    rw [Option.eq_none_iff_forall_ne_some]
    constructor
    · intro none
      by_contra some
      push Not at some
      obtain ⟨ne, i, le, stands⟩ := some
      obtain ⟨q, first⟩ := FirstFrom.exists (P := (lit <+: text.toList.drop ·)) le stands
      exact none q ((found q).mpr ⟨ne, first⟩)
    · intro missing i answer
      obtain ⟨ne, first⟩ := (found i).mp answer
      rcases missing with empty | nowhere
      · exact ne empty
      · exact nowhere i first.le first.holds

/-- There is one answer only. -/
lemma Answers.unique {r r' : Option Nat} (one : text.Answers lit start r) (other : text.Answers lit start r') :
    r = r' := by
  ext i
  rw [one.found, other.found]

/-- The answer of `find?` is the one that a search has to give. -/
lemma answers_find? : text.Answers lit start (text.find? lit start) := by
  refine .of_found fun i => ?_
  cases answer : text.find? lit start with
  | none =>
    refine iff_of_false nofun ?_
    rintro ⟨ne, first⟩
    exact find?_eq_none answer ne first.le (occursAt_iff.mpr first.holds)
  | some q =>
    obtain ⟨ne, first⟩ := find?_eq_some answer
    simp only [occursAt_iff] at first
    rw [Option.some_inj]
    constructor
    · rintro rfl
      exact ⟨ne, first⟩
    · rintro ⟨-, first'⟩
      exact first.unique first'

/-- The answer in the rest of the text, counted from the beginning of the text. -/
lemma Answers.of_drop {r : Option Nat} (inside : Answers (text.toList.drop start).toArray lit 0 r) :
    text.Answers lit start (r.map (start + ·)) := by
  refine .of_found fun i => ?_
  have found := inside.found
  simp only [List.drop_drop] at found
  rw [Option.map_eq_some_iff]
  constructor
  · rintro ⟨k, answer, rfl⟩
    obtain ⟨ne, first⟩ := (found k).mp answer
    exact ⟨ne, FirstFrom.shift.mp first⟩
  · rintro ⟨ne, first⟩
    obtain ⟨k, rfl⟩ := Nat.exists_eq_add_of_le first.le
    exact ⟨k, (found k).mpr ⟨ne, FirstFrom.shift.mpr first⟩, rfl⟩

/-- Behind the end of the text no literal stands, apart from the empty one. -/
lemma answers_none_of_behind (behind : text.size < start) : text.Answers lit start none := by
  refine .of_found fun i => iff_of_false nofun ?_
  rintro ⟨ne, first⟩
  have room := add_length_le_of_occursAt (occursAt_iff.mpr first.holds) ne
  have le := first.le
  omega

/-- The scan from a start ends within the text and finds what `find?` finds. -/
lemma scanFrom?_eq (finds : FindsByte seek) : scanFrom? seek text lit start = some (text.find? lit start) := by
  rcases Nat.lt_or_ge text.size start with behind | within
  · rw [scanFrom?, from?, if_neg (Nat.not_le.mpr behind)]
    exact congrArg some ((answers_none_of_behind behind).unique answers_find?)
  · rw [scanFrom?, from?_of_le within]
    simp only [scan?_eq finds, Option.bind_eq_bind, Option.bind_some]
    refine congrArg some (Answers.unique ?_ answers_find?)
    simp only [Nat.add_comm _ start]
    exact answers_find?.of_drop

/-- The scan for a literal ends, without leaving the text, with the first place where the literal stands. It finds
nothing exactly if the literal is empty or stands nowhere. From a start on, within the text or behind its end, it
finds the first place that is not in front of the start. -/
theorem answers_scan (finds : FindsByte seek) (text : Text) (lit : List UInt8) :
    (∃ r, scan? seek text lit = some r ∧ text.find? lit 0 = r ∧ text.Answers lit 0 r) ∧
      ∀ start, ∃ r, scanFrom? seek text lit start = some r ∧ text.find? lit start = r ∧ text.Answers lit start r :=
  ⟨⟨_, scan?_eq finds, rfl, answers_find?⟩, fun _ => ⟨_, scanFrom?_eq finds, rfl, answers_find?⟩⟩

/-- In the text "aab" the scan for "ab" passes over its false start; behind the end there is nothing. -/
theorem answers_scan_falseStart :
    FindsByte (fun b bytes => bytes.findIdx? (· == b)) ∧
      scan? (fun b bytes => bytes.findIdx? (· == b)) #[97, 97, 98] [97, 98] = some (some 1) ∧
      scanFrom? (fun b bytes => bytes.findIdx? (· == b)) #[97, 97, 98] [97, 98] 4 = some none := by
  have finds : FindsByte (fun b bytes => bytes.findIdx? (· == b)) := fun _ _ => rfl
  obtain ⟨⟨r, scans, -, answers⟩, fromStart⟩ := answers_scan finds #[97, 97, 98] [97, 98]
  obtain ⟨r', scans', -, answers'⟩ := fromStart 4
  refine ⟨finds, ?_, ?_⟩
  · rw [scans, (answers.found 1).mpr ⟨List.cons_ne_nil _ _, Nat.zero_le _, by decide, by decide⟩]
  · have nowhere : ∀ i, 4 ≤ i → ¬ [97, 98] <+: ([97, 97, 98] : List UInt8).drop i := by
      intro i le
      rw [List.drop_eq_nil_of_le (Nat.le_trans (by decide) le)]
      decide
    rw [scans', answers'.missed.mpr (.inr nowhere)]

end Text

end PatternVM
