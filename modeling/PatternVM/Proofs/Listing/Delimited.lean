import Mathlib.Tactic.Common

/-!
# Texts that show where they end

Two properties of the texts that make up a listing. A way to write values is self-delimiting if it can be seen where
the text of a value ends, whatever stands behind it; so one value can be written after another. A printable text has
no other characters than the printable ones of ASCII, and no line end in particular; so a listing falls apart into its
lines.
-/

namespace PatternVM.Listing

variable {α : Type} {code : α → List Char} {a b : α} {rest rest' text text' : List Char} {stop : Char}

/-! ## Self-delimiting texts -/

/-- From a text that begins with a value, the value and what follows it can be told. -/
def SelfDelimiting (code : α → List Char) : Prop :=
  ∀ ⦃a b : α⦄ ⦃rest rest' : List Char⦄, code a ++ rest = code b ++ rest' → a = b ∧ rest = rest'

/-- Texts that tell where they end are different for different values. -/
lemma SelfDelimiting.injective (single : SelfDelimiting code) : Function.Injective code :=
  fun _ _ same => (single (congrArg (· ++ []) same)).1

/-- With any strings behind them, two values have the same text only if they and these strings are the same. -/
lemma SelfDelimiting.ofList_append_inj (single : SelfDelimiting code) {u v : String} :
    String.ofList (code a) ++ u = String.ofList (code b) ++ v ↔ a = b ∧ u = v := by
  constructor
  · intro same
    have chars := congrArg String.toList same
    rw [String.toList_append, String.toList_append, String.toList_ofList, String.toList_ofList] at chars
    obtain ⟨eq, behind⟩ := single chars
    exact ⟨eq, String.toList_inj.mp behind⟩
  · rintro ⟨rfl, rfl⟩
    rfl

/-- A list of values, one after another, is self-delimiting if a stop is behind it that no value begins with. -/
lemma SelfDelimiting.list (single : SelfDelimiting code) (apart : ∀ a rest rest', code a ++ rest ≠ stop :: rest')
    (start : Char) : SelfDelimiting fun as : List α => start :: (as.flatMap code ++ [stop]) := by
  intro as bs rest rest' same
  simp only [List.cons_append, List.cons.injEq, true_and, List.append_assoc, List.nil_append] at same
  induction as generalizing bs with
  | nil =>
    cases bs with
    | nil => simpa using same
    | cons b bs =>
      rw [List.flatMap_cons, List.append_assoc] at same
      exact absurd same.symm (apart b _ _)
  | cons a as ih =>
    rw [List.flatMap_cons, List.append_assoc] at same
    cases bs with
    | nil => exact absurd same (apart a _ _)
    | cons b bs =>
      rw [List.flatMap_cons, List.append_assoc] at same
      obtain ⟨rfl, after⟩ := single same
      obtain ⟨rfl, rfl⟩ := ih after
      exact ⟨rfl, rfl⟩

/-- A list of items of one kind ends where an item of another kind follows, or nothing. -/
lemma cut {p : α → Bool} {as as' bs bs' : List α} (inside : ∀ a ∈ as, p a) (inside' : ∀ a ∈ as', p a)
    (after : ∀ b ∈ bs.head?, ¬ p b) (after' : ∀ b ∈ bs'.head?, ¬ p b) (same : as ++ bs = as' ++ bs') :
    as = as' ∧ bs = bs' := by
  have takes {as bs : List α} (inside : ∀ a ∈ as, p a) (after : ∀ b ∈ bs.head?, ¬ p b) :
      (as ++ bs).takeWhile p = as := by
    rw [List.takeWhile_append_of_pos inside]
    cases bs with
    | nil => simp
    | cons b bs => simp [List.takeWhile_cons_of_neg (after b rfl)]
  have eq : as = as' := by rw [← takes inside after, same, takes inside' after']
  subst eq
  exact ⟨rfl, List.append_cancel_left same⟩

/-- A text without the stop ends where the first stop is. -/
lemma cut_at_stop (free : stop ∉ text) (free' : stop ∉ text') (same : text ++ stop :: rest = text' ++ stop :: rest') :
    text = text' ∧ rest = rest' := by
  have ⟨eq, eq'⟩ := cut (p := (· != stop)) (by grind) (by grind) (by simp) (by simp) same
  exact ⟨eq, List.tail_eq_of_cons_eq eq'⟩

/-! ## Printable texts -/

/-- All characters are printable ones of ASCII. -/
def Printable (text : List Char) : Prop := ∀ c ∈ text, 32 ≤ c.toNat ∧ c.toNat ≤ 126

/-- Whether a text is printable is decided character by character. -/
instance : Decidable (Printable text) := List.decidableBAll _ _

/-- The empty text is printable. -/
@[simp] lemma printable_nil : Printable [] := by simp [Printable]

/-- A text is printable if its first character is and the rest is. -/
@[simp] lemma printable_cons {c : Char} :
    Printable (c :: text) ↔ (32 ≤ c.toNat ∧ c.toNat ≤ 126) ∧ Printable text := by
  simp [Printable]

/-- Texts one behind the other are printable if both are. -/
@[simp] lemma printable_append : Printable (text ++ text') ↔ Printable text ∧ Printable text' :=
  List.forall_mem_append

/-- The texts of some values one behind the other are printable if each of them is. -/
@[simp] lemma printable_flatMap {as : List α} : Printable (as.flatMap code) ↔ ∀ a ∈ as, Printable (code a) :=
  List.forall_mem_flatMap

/-- There is no line end in a printable text. -/
lemma Printable.free_of_lineEnd (printable : Printable text) : '\n' ∉ text := by
  intro mem
  have := printable _ mem
  contradiction

/-- Lines that are printable can be told from each other in a text in which a line end stands behind each. -/
lemma splitOn_lines {lines : List (List Char)} (printable : ∀ line ∈ lines, Printable line) :
    (lines.flatMap (· ++ ['\n'])).splitOn '\n' = lines ++ [[]] := by
  induction lines with
  | nil => rfl
  | cons line lines ih =>
    obtain ⟨head, tail⟩ := List.forall_mem_cons.1 printable
    have free : ∀ c ∈ line, (c == '\n') = false := by
      intro c mem
      rw [beq_eq_false_iff_ne]
      exact ne_of_mem_of_not_mem mem head.free_of_lineEnd
    calc ((line :: lines).flatMap (· ++ ['\n'])).splitOn '\n'
        = (line ++ '\n' :: lines.flatMap (· ++ ['\n'])).splitOn '\n' := by simp
      _ = line :: (lines.flatMap (· ++ ['\n'])).splitOn '\n' :=
        List.splitOnP_append_cons_of_forall_mem free _ rfl _
      _ = line :: lines ++ [[]] := by rw [ih tail, List.cons_append]

end PatternVM.Listing
