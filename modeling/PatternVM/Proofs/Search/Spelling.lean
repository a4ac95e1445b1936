import PatternVM.Proofs.Search.Expansion

/-!
# Spelling literals out

A literal is short for one instruction for each of its bytes, each looking for a class with that byte only. So the
literals of a program can be spelled out, apart from empty ones, and it accepts the same texts
(`Matcher.test_spellOut`). The classes may be added to the table in any way, as long as the numbers lead to them.

Where a thread is anchored, both read the same bytes (`Program.crosses_spelled_iff`). An unanchored thread takes
a token that is not empty as an anchored one would further on, and the first byte of a literal is such a token.
-/

namespace PatternVM

namespace Instr

/-- An instruction for each byte of a literal, where class `number i` has just byte `i`. The last instruction carries
the end flag. -/
def spelled (atEnd : Bool) (number : Nat → Nat) : List UInt8 → List Instr
  | [] => []
  | _ :: rest => byteClass (number 0) (atEnd && rest.isEmpty) :: spelled atEnd (fun i => number (i + 1)) rest

/-- A literal that is not empty, spelled out. -/
def spellOut (number : Nat → Nat) : Instr → List Instr
  | literal (b :: rest) atEnd => spelled atEnd number (b :: rest)
  | instr => [instr]

/-- The bytes of a literal. -/
def bytes : Instr → List UInt8
  | literal bytes _ => bytes
  | _ => []

/-- There is one instruction for each byte. -/
lemma length_spelled {atEnd : Bool} {number : Nat → Nat} {bytes : List UInt8} :
    (spelled atEnd number bytes).length = bytes.length := by
  induction bytes generalizing number with
  | nil => rfl
  | cons b rest ih => rw [spelled, List.length_cons, List.length_cons, ih]

/-- The instructions for the bytes are plain. -/
lemma isPlain_of_mem_spelled {atEnd : Bool} {number : Nat → Nat} {bytes : List UInt8} {instr : Instr}
    (mem : instr ∈ spelled atEnd number bytes) : instr.isPlain := by
  induction bytes generalizing number with
  | nil => cases mem
  | cons b rest ih =>
    obtain rfl | mem := List.mem_cons.mp mem
    · rfl
    · exact ih mem

end Instr

namespace Program

/-- The program with its literals spelled out, where class `number pc i` stands for byte `i` of the literal at `pc`.
The classes that are needed for it are added to the table. -/
def spellOut (p : Program) (number : Nat → Nat → Nat) (added : Array ByteSet) : Program :=
  p.expand (fun pc => Instr.spellOut (number pc)) added

/-- In the larger class table, each byte of a literal has a class of its own at its number. -/
def Numbers (p : Program) (number : Nat → Nat → Nat) (added : Array ByteSet) : Prop :=
  ∀ pc < p.size, ∀ instr ∈ p.instr? pc, ∀ entry ∈ instr.bytes.zipIdx,
    (p.spellOut number added).class? (number pc entry.2) = some (.ofList [entry.1])

/-- Whether numbers name the bytes of all literals is decided literal by literal. -/
instance (p : Program) (number : Nat → Nat → Nat) (added : Array ByteSet) : Decidable (p.Numbers number added) :=
  inferInstanceAs (Decidable (∀ pc < p.size, ∀ instr ∈ p.instr? pc, ∀ entry ∈ instr.bytes.zipIdx, _ = _))

variable {p : Program} {text : Text} {instr : Instr} {c c' d : Place} {atEnd : Bool} {b : UInt8}
variable {bytes rest : List UInt8} {pc pos q id : Nat} {saved : List Nat} {number : Nat → Nat}

/-! ## Taking tokens -/

/-- An unanchored thread takes what is not empty as an anchored one would at some later place. -/
lemma takes_unanchored_iff (nonempty : ∀ atEnd, ¬ p.Spells instr atEnd []) :
    p.Takes text instr ⟨⟨pc, pos, true⟩, saved⟩ d ↔
      ∃ q, pos ≤ q ∧ p.Takes text instr ⟨⟨pc, q, false⟩, saved⟩ d := by
  constructor
  · intro takes
    cases takes with
    | unanchored spells le stands ends empty => exact ⟨_, le, .anchored spells stands ends⟩
  · rintro ⟨q, le, takes⟩
    cases takes with
    | anchored spells stands ends =>
      refine .unanchored spells le stands ends ?_
      rintro rfl
      exact absurd spells (nonempty _)

/-- An anchored thread takes what an instruction that spells just `bytes` asks for at its cursor. -/
lemma takes_anchored_iff (spells : ∀ flag other, p.Spells instr flag other ↔ flag = atEnd ∧ other = bytes) :
    p.Takes text instr ⟨⟨pc, pos, false⟩, saved⟩ d ↔
      bytes <+: text.toList.drop pos ∧ (atEnd → pos + bytes.length = text.size) ∧
        d = ⟨⟨pc + 1, pos + bytes.length, false⟩, saved⟩ := by
  constructor
  · intro takes
    cases takes with
    | anchored h stands ends =>
      obtain ⟨rfl, rfl⟩ := (spells _ _).mp h
      exact ⟨stands, ends, rfl⟩
  · rintro ⟨stands, ends, rfl⟩
    exact .anchored ((spells _ _).mpr ⟨rfl, rfl⟩) stands ends

/-- A literal spells its own bytes only, with its own flag. -/
lemma spells_literal_iff {flag : Bool} {other : List UInt8} :
    p.Spells (.literal bytes atEnd) flag other ↔ flag = atEnd ∧ other = bytes := by
  constructor
  · rintro ⟨⟩
    exact ⟨rfl, rfl⟩
  · rintro ⟨rfl, rfl⟩
    exact .literal

/-- A class with one byte spells that byte. -/
lemma spells_single_iff {flag : Bool} {other : List UInt8} (found : p.class? id = some (.ofList [b])) :
    p.Spells (.byteClass id atEnd) flag other ↔ flag = atEnd ∧ other = [b] := by
  constructor
  · intro spells
    cases spells with
    | @byteClass _ _ _ b' found' mem =>
      rw [found] at found'
      cases found'
      obtain rfl : b' = b := by simpa [ByteSet.ofList] using mem
      exact ⟨rfl, rfl⟩
  · rintro ⟨rfl, rfl⟩
    exact .byteClass found (by simp [ByteSet.ofList])

/-- Carrying a literal out is taking its bytes. -/
lemma performs_iff_takes_literal :
    p.Performs text (.literal bytes atEnd) c d ↔ p.Takes text (.literal bytes atEnd) c d :=
  or_iff_left (Consumes.literal (p := p)).not_passes

/-- Carrying a class out is taking a byte of it. -/
lemma performs_iff_takes_byteClass {set : ByteSet} (found : p.class? id = some set) :
    p.Performs text (.byteClass id atEnd) c d ↔ p.Takes text (.byteClass id atEnd) c d :=
  or_iff_left (Consumes.byteClass found).not_passes

/-- Some bytes stand at a position if the first one does and the others stand behind it. -/
lemma cons_prefix_drop_iff : b :: rest <+: text.toList.drop pos ↔
    [b] <+: text.toList.drop pos ∧ rest <+: text.toList.drop (pos + 1) := by
  rw [singleton_prefix_drop_iff, ← Text.occursAt_iff, ← Text.occursAt_iff, Text.occursAt, Bool.and_eq_true,
    beq_iff_eq]

/-! ## Literals -/

/-- A literal that is spelled out is crossed by an anchored thread where it stands. -/
lemma crosses_spelled_iff
    (numbers : ∀ i b', (b :: rest)[i]? = some b' → p.class? (number i) = some (.ofList [b'])) :
    p.Crosses text (Instr.spelled atEnd number (b :: rest)) ⟨⟨pc, pos, false⟩, saved⟩ d ↔
      b :: rest <+: text.toList.drop pos ∧ (atEnd → pos + (b :: rest).length = text.size) ∧
        d = ⟨⟨pc + (b :: rest).length, pos + (b :: rest).length, false⟩, saved⟩ := by
  induction rest generalizing b number pc pos with
  | nil =>
    have found := numbers 0 b rfl
    rw [Instr.spelled, Instr.spelled, crosses_singleton_iff, performs_iff_takes_byteClass found]
    rw [takes_anchored_iff fun _ _ => spells_single_iff found, List.isEmpty_nil, Bool.and_true]
    rfl
  | cons second rest ih =>
    have found := numbers 0 b rfl
    have others : ∀ i b', (second :: rest)[i]? = some b' → p.class? (number (i + 1)) = some (.ofList [b']) :=
      fun i b' at_i => numbers (i + 1) b' at_i
    have length (n : Nat) : n + (b :: second :: rest).length = n + 1 + (second :: rest).length := by
      rw [List.length_cons, Nat.add_comm _ 1, Nat.add_assoc]
    rw [Instr.spelled, crosses_cons_iff, cons_prefix_drop_iff, length, length, List.isEmpty_cons, Bool.and_false]
    constructor
    · rintro ⟨next, performs, crosses⟩
      rw [performs_iff_takes_byteClass found, takes_anchored_iff fun _ _ => spells_single_iff found] at performs
      obtain ⟨stands, _, rfl⟩ := performs
      obtain ⟨stands', ends, rfl⟩ := (ih others).mp crosses
      exact ⟨⟨stands, stands'⟩, ends, rfl⟩
    · rintro ⟨⟨stands, stands'⟩, ends, rfl⟩
      refine ⟨⟨⟨pc + 1, pos + 1, false⟩, saved⟩, ?_, (ih others).mpr ⟨stands', ends, rfl⟩⟩
      rw [performs_iff_takes_byteClass found, takes_anchored_iff fun _ _ => spells_single_iff found]
      exact ⟨stands, nofun, rfl⟩

/-- An unanchored thread crosses what begins with a byte as an anchored one would at some later place. -/
lemma crosses_unanchored_iff {block : List Instr} (nonempty : ∀ atEnd, ¬ p.Spells instr atEnd [])
    (performs_iff : ∀ c d, p.Performs text instr c d ↔ p.Takes text instr c d) :
    p.Crosses text (instr :: block) ⟨⟨pc, pos, true⟩, saved⟩ d ↔
      ∃ q, pos ≤ q ∧ p.Crosses text (instr :: block) ⟨⟨pc, q, false⟩, saved⟩ d := by
  simp only [crosses_cons_iff, performs_iff, takes_unanchored_iff nonempty]
  constructor
  · rintro ⟨next, ⟨q, le, takes⟩, crosses⟩
    exact ⟨q, le, next, takes, crosses⟩
  · rintro ⟨q, le, next, takes, crosses⟩
    exact ⟨next, ⟨q, le, takes⟩, crosses⟩

/-- A literal that is not empty is replaced by its bytes. -/
lemma replaces_spelled
    (numbers : ∀ i b', (b :: rest)[i]? = some b' → p.class? (number i) = some (.ofList [b'])) :
    p.Replaces text (Instr.spelled atEnd number (b :: rest)) (.literal (b :: rest) atEnd) := by
  refine ⟨List.cons_ne_nil _ _, rfl, fun _ => Instr.isPlain_of_mem_spelled, fun c d => ?_⟩
  rw [Instr.length_spelled]
  simp only [performs_iff_takes_literal]
  have anchored (pc pos : Nat) (saved : List Nat) :
      p.Crosses text (Instr.spelled atEnd number (b :: rest)) ⟨⟨pc, pos, false⟩, saved⟩ d ↔
        ∃ c', p.Takes text (.literal (b :: rest) atEnd) ⟨⟨pc, pos, false⟩, saved⟩ c' ∧
          d = c'.goto (pc + (b :: rest).length) := by
    rw [crosses_spelled_iff numbers]
    simp only [takes_anchored_iff fun _ _ => spells_literal_iff]
    constructor
    · rintro ⟨stands, ends, rfl⟩
      exact ⟨_, ⟨stands, ends, rfl⟩, rfl⟩
    · rintro ⟨c', ⟨stands, ends, rfl⟩, rfl⟩
      exact ⟨stands, ends, rfl⟩
  obtain ⟨⟨pc, pos, unanchored⟩, saved⟩ := c
  cases unanchored with
  | false => exact anchored pc pos saved
  | true =>
    have found := numbers 0 b rfl
    have first_nonempty flag : ¬ p.Spells (.byteClass (number 0) (atEnd && rest.isEmpty)) flag [] :=
      fun spells => List.cons_ne_nil _ _ ((spells_single_iff found).mp spells).2.symm
    have nonempty flag : ¬ p.Spells (.literal (b :: rest) atEnd) flag [] := nofun
    rw [Instr.spelled, crosses_unanchored_iff first_nonempty fun _ _ => performs_iff_takes_byteClass found]
    simp only [takes_unanchored_iff nonempty]
    constructor
    · rintro ⟨q, le, crosses⟩
      obtain ⟨c', takes, eq⟩ := (anchored pc q saved).mp crosses
      exact ⟨c', ⟨q, le, takes⟩, eq⟩
    · rintro ⟨c', ⟨q, le, takes⟩, eq⟩
      exact ⟨q, le, (anchored pc q saved).mpr ⟨c', takes, eq⟩⟩

/-- The instructions for the bytes of a literal do what the literal does. -/
lemma faithful_spellOut {number : Nat → Nat → Nat} {added : Array ByteSet} (numbers : p.Numbers number added) :
    p.Faithful text (fun pc => Instr.spellOut (number pc)) added := by
  intro pc instr at_pc
  cases instr with
  | literal bytes atEnd =>
    cases bytes with
    | nil => exact .inl rfl
    | cons b rest =>
      refine .inr (replaces_spelled fun i b' at_i => ?_)
      exact numbers pc (lt_size_of_instr? at_pc) _ at_pc (b', i) (List.mk_mem_zipIdx_iff_getElem?.mpr at_i)
  | _ => exact .inl rfl

end Program

namespace Matcher

variable {m m' : Matcher} {budget budget' : Nat} {p : Program} {number : Nat → Nat → Nat} {added : Array ByteSet}
variable {text : Text} {o o' : Outcome} {found found' : Bool}

/-- A program that passes the check gets the same answer with all literals spelled out as classes of one byte, if
both get one. -/
theorem test_spellOut (checked : p.check = .ok ()) (numbers : p.Numbers number added)
    (fit : p.JumpsFit fun pc => Instr.spellOut (number pc)) (test : m.test budget p text = some o)
    (test' : m'.test budget' (p.spellOut number added) text = some o') (answer : o.verdict = .ok found)
    (answer' : o'.verdict = .ok found') : found = found' := by
  have closed := Program.closed_of_check checked
  have same : (p.spellOut number added).Accepts text ↔ p.Accepts text :=
    Program.accepts_expand (Program.faithful_spellOut numbers) fit closed
  exact answer_eq_of_accepts_iff same test test' answer answer'

/-- A repeated literal whose first occurrence begins in the middle of a false start, and a flagged one behind it. -/
theorem test_spellOut_repetition :
    let p : Program :=
      ⟨#[.savePos, .branchFirst 4, .literal [97, 97, 98] false, .jumpIfAdvanced (-3), .jump 1,
          .literal [99] true, .accept], #[.empty]⟩
    let number : Nat → Nat → Nat := fun pc i => if pc = 2 then [1, 1, 2].getD i 0 else 3
    let added : Array ByteSet := #[.ofList [97], .ofList [98], .ofList [99]]
    let text : Text := #[97, 97, 97, 98, 97, 97, 98, 99]
    let m := Matcher.ofConfig ⟨0, .none⟩
    p.check = .ok () ∧ p.Numbers number added ∧ (p.JumpsFit fun pc => Instr.spellOut (number pc)) ∧
      (p.spellOut number added).code =
        #[.savePos, .branchFirst 6, .byteClass 1 false, .byteClass 1 false, .byteClass 2 false,
          .jumpIfAdvanced (-5), .jump 1, .byteClass 3 true, .accept] ∧
      ∃ o o', m.test 50 p text = some o ∧ m.test 50 (p.spellOut number added) text = some o' ∧
        o.verdict = .ok true ∧ o'.verdict = .ok true := by
  intro p number added text m
  have checked : p.check = .ok () := by decide +kernel
  have numbers : p.Numbers number added := by decide +kernel
  have fit : p.JumpsFit fun pc => Instr.spellOut (number pc) := by decide +kernel
  have matches_text : (m.test 50 p text).map Outcome.verdict = some (.ok true) := by decide +kernel
  have answers : (m.test 50 (p.spellOut number added) text).map (·.verdict.isOk) = some true := by
    decide +kernel
  obtain ⟨o, test, answer⟩ := Option.map_eq_some_iff.mp matches_text
  obtain ⟨o', found, test', answer'⟩ := exists_answer_of_isOk answers
  obtain rfl : true = found := test_spellOut checked numbers fit test test' answer answer'
  exact ⟨checked, numbers, fit, by decide +kernel, o, o', test, test', answer, answer'⟩

end Matcher

end PatternVM
