import Mathlib.Data.List.Basic
import PatternVM.Machine.Move
import PatternVM.Proofs.Stack.Guarded
import PatternVM.Proofs.Text.Occurrence

/-!
# Guarded access to texts

How tokens are matched on the bytes of a text, with every access guarded: a part of the text may begin at its
end but not behind it, and a single byte has to be there. As long as the cursor is within the text, nothing
else is asked for, and the moves are those of `Token.move`.
-/

namespace PatternVM

namespace Text

/-- The text from a position on. -/
def from? (text : Text) (i : Nat) : Option (List UInt8) :=
  if i ≤ text.size then some (text.toList.drop i) else none

variable {text : Text} {bytes : List UInt8} {pos : Nat}

/-- The text can be sliced at its end at the latest. -/
lemma from?_of_le (le : pos ≤ text.size) : text.from? pos = some (text.toList.drop pos) := if_pos le

/-- Bytes occur at a position if the rest of the text begins with them. -/
lemma isPrefixOf_drop : bytes.isPrefixOf (text.toList.drop pos) ↔ text.occursAt pos bytes := by
  rw [List.isPrefixOf_iff_prefix, occursAt_iff]

/-- The rest of the text is a literal if that occurs there and ends with the text. -/
lemma drop_eq_iff (le : pos ≤ text.size) :
    text.toList.drop pos = bytes ↔ pos + bytes.length = text.size ∧ text.occursAt pos bytes := by
  have length : (text.toList.drop pos).length = text.size - pos := by
    rw [List.length_drop, Array.length_toList]
  rw [occursAt_iff]
  constructor
  · rintro rfl
    refine ⟨?_, List.prefix_refl _⟩
    rw [length, Nat.add_sub_cancel' le]
  · rintro ⟨ends, stands⟩
    refine (stands.eq_of_length ?_).symm
    omega

/-- The rest of the text ends with a literal if there is room for that and it occurs at the end of the text. -/
lemma isSuffixOf_drop (le : pos ≤ text.size) : bytes.isSuffixOf (text.toList.drop pos) ↔
    pos + bytes.length ≤ text.size ∧ text.occursAt (text.size - bytes.length) bytes := by
  have length : (text.toList.drop pos).length = text.size - pos := by
    rw [List.length_drop, Array.length_toList]
  rw [List.isSuffixOf_iff_suffix]
  constructor
  · intro ends
    have short := ends.length_le
    have room : pos + bytes.length ≤ text.size := by omega
    have whole := List.suffix_iff_eq_drop.mp ends
    rw [length, List.drop_drop, show pos + (text.size - pos - bytes.length) = text.size - bytes.length by
      omega] at whole
    exact ⟨room, ((drop_eq_iff (Nat.sub_le ..)).mp whole.symm).2⟩
  · rintro ⟨room, occurs⟩
    have whole : text.toList.drop (text.size - bytes.length) = bytes :=
      (drop_eq_iff (Nat.sub_le ..)).mpr ⟨by omega, occurs⟩
    rw [List.suffix_iff_eq_drop, length, List.drop_drop,
      show pos + (text.size - pos - bytes.length) = text.size - bytes.length by omega]
    exact whole.symm

/-- The first byte with a property is the one that is found in a stretch of the text. -/
lemma findIdx?_slice {P : UInt8 → Bool} {stop : Nat} (within : stop ≤ text.size) :
    (((text.toList.take stop).drop pos).findIdx? P).map (pos + ·) = text.firstByte? P pos stop := by
  fun_induction firstByte? text P pos stop with
  | case1 i lt holds =>
    have inside := Nat.lt_of_lt_of_le lt within
    rw [holdsAt, Array.getElem?_eq_getElem inside] at holds
    rw [List.drop_eq_getElem_cons (by simpa using Nat.lt_min.mpr ⟨lt, inside⟩), List.findIdx?_cons]
    simpa using holds
  | case2 i lt fails ih =>
    have inside := Nat.lt_of_lt_of_le lt within
    rw [holdsAt, Array.getElem?_eq_getElem inside] at fails
    rw [← ih, List.drop_eq_getElem_cons (by simpa using Nat.lt_min.mpr ⟨lt, inside⟩), List.findIdx?_cons]
    simp only [List.getElem_take, Array.getElem_toList]
    rw [if_neg (by simpa using fails), Option.map_map]
    refine congrArg (Option.map · _) (funext fun k => ?_)
    simp only [Function.comp_apply]
    omega
  | case3 i done =>
    rw [List.drop_eq_nil_of_le (by simp; omega)]
    rfl

/-- The first byte with a property is the one that is found in the rest of the text. -/
lemma findIdx?_drop {P : UInt8 → Bool} :
    ((text.toList.drop pos).findIdx? P).map (pos + ·) = text.firstByte? P pos text.size := by
  have whole : text.toList.take text.size = text.toList := List.take_of_length_le (Nat.le_of_eq Array.length_toList)
  rw [← findIdx?_slice (Nat.le_refl _), whole]

end Text

/-- Guarded `Token.move`. A literal is compared with the rest of the text, one byte with the byte at the cursor
or the last one. The searches for an unflagged token look at the rest of the text as well. -/
def Token.move? (token : Token) (text : Text) (atEnd : Bool) (t : Thread) : Option Move :=
  match token, t.unanchored, atEnd with
  | .literal bytes, false, false => do
    let rest ← text.from? t.pos
    return if bytes.isPrefixOf rest then .goto .keep ⟨t.pc + 1, t.pos + bytes.length, false⟩ else .fail
  | .literal bytes, false, true => do
    let rest ← text.from? t.pos
    return if rest = bytes then .goto .keep ⟨t.pc + 1, text.size, false⟩ else .fail
  | .literal bytes, true, false =>
    match text.find? bytes t.pos with
    | some q => return .fork .keep ⟨t.pc + 1, q + bytes.length, false⟩ ⟨t.pc, q + 1, true⟩
    | none => return .fail
  | .literal bytes, true, true => do
    let rest ← text.from? t.pos
    return if bytes.isSuffixOf rest then .goto .keep ⟨t.pc + 1, text.size, false⟩ else .fail
  | .oneOf set, false, false =>
    if text.size ≤ t.pos then
      return .fail
    else do
      let b ← text[t.pos]?
      return if set.contains b then .goto .keep ⟨t.pc + 1, t.pos + 1, false⟩ else .fail
  | .oneOf set, false, true =>
    if t.pos + 1 ≠ text.size then
      return .fail
    else do
      let b ← text[t.pos]?
      return if set.contains b then .goto .keep ⟨t.pc + 1, text.size, false⟩ else .fail
  | .oneOf set, true, false => do
    let rest ← text.from? t.pos
    match rest.findIdx? set.contains with
    | some k => return .fork .keep ⟨t.pc + 1, t.pos + k + 1, false⟩ ⟨t.pc, t.pos + k + 1, true⟩
    | none => return .fail
  | .oneOf set, true, true =>
    if text.size ≤ t.pos then
      return .fail
    else do
      let last ← difference? text.size 1
      let b ← text[last]?
      return if set.contains b then .goto .keep ⟨t.pc + 1, text.size, false⟩ else .fail
  | .anyByte, _, _ => return Token.anyByte.move text atEnd t

namespace Token

variable {text : Text} {t : Thread}

/-- With the cursor within the text no guard fails when a literal is matched. -/
lemma literal_move? (bytes : List UInt8) (atEnd : Bool) (within : t.pos ≤ text.size) :
    (literal bytes).move? text atEnd t = some ((literal bytes).move text atEnd t) := by
  obtain ⟨pc, pos, unanchored⟩ := t
  cases unanchored with
  | false =>
    cases atEnd with
    | false =>
      simp only [move?, move, Text.from?_of_le within, Option.bind_eq_bind, Option.bind_some,
        Text.isPrefixOf_drop]
      rfl
    | true =>
      simp only [move?, move, Text.from?_of_le within, Option.bind_eq_bind, Option.bind_some,
        Text.drop_eq_iff within]
      rfl
  | true =>
    cases atEnd with
    | false =>
      simp only [move?, move, find?]
      cases text.find? bytes pos <;> rfl
    | true =>
      simp only [move?, move, Text.from?_of_le within, Option.bind_eq_bind, Option.bind_some,
        Text.isSuffixOf_drop within]
      rfl

/-- A byte out of a set occurs where the byte of the text is in the set. -/
lemma oneOf_occursAt {set : ByteSet} {i : Nat} (lt : i < text.size) :
    (oneOf set).occursAt text i = set.contains text[i] := by
  rw [occursAt, Text.holdsAt, Array.getElem?_eq_getElem lt]
  rfl

/-- No byte occurs behind the end of the text. -/
lemma oneOf_not_occursAt {set : ByteSet} {i : Nat} (le : text.size ≤ i) :
    (oneOf set).occursAt text i = false := by
  rw [occursAt, Text.holdsAt, Array.getElem?_eq_none le]
  rfl

/-- With the cursor within the text no guard fails when a byte is matched. -/
lemma oneOf_move? (set : ByteSet) (atEnd : Bool) (within : t.pos ≤ text.size) :
    (oneOf set).move? text atEnd t = some ((oneOf set).move text atEnd t) := by
  obtain ⟨pc, pos, unanchored⟩ := t
  cases unanchored with
  | false =>
    cases atEnd with
    | false =>
      simp only [move?, move]
      by_cases done : text.size ≤ pos
      · simp only [if_pos done, oneOf_not_occursAt done]
        rfl
      · have lt := Nat.not_le.mp done
        simp only [if_neg done, oneOf_occursAt lt, Array.getElem?_eq_getElem lt]
        rfl
    | true =>
      simp only [move?, move, width]
      by_cases ends : pos + 1 = text.size
      · have lt : pos < text.size := Nat.lt_of_succ_le (Nat.le_of_eq ends)
        simp only [ends, ne_eq, not_true_eq_false, if_false, true_and, oneOf_occursAt lt,
          Array.getElem?_eq_getElem lt]
        rfl
      · simp only [ends, ne_eq, not_false_eq_true, if_true, false_and, if_false]
        rfl
  | true =>
    cases atEnd with
    | false =>
      simp only [move?, move, find?, Text.from?_of_le within, ← Text.findIdx?_drop, Option.bind_eq_bind,
        Option.bind_some]
      cases (text.toList.drop pos).findIdx? set.contains <;> rfl
    | true =>
      simp only [move?, move, width]
      by_cases done : text.size ≤ pos
      · have beyond : ¬ pos + 1 ≤ text.size := Nat.not_le.mpr (Nat.lt_succ_of_le done)
        simp only [done, if_true, beyond, false_and, if_false]
        rfl
      · have lt := Nat.not_le.mp done
        -- there is a last byte, so the difference to its index is not below zero
        have nonempty : 1 ≤ text.size := Nat.zero_lt_of_lt lt
        have last_lt : text.size - 1 < text.size := Nat.sub_lt nonempty Nat.one_pos
        simp only [done, if_false, Nat.succ_le_of_lt lt, true_and, difference?_of_le nonempty,
          oneOf_occursAt last_lt, Array.getElem?_eq_getElem last_lt, Option.bind_eq_bind, Option.bind_some]
        rfl

/-- With the cursor within the text, the guarded move of a token is its move. -/
lemma move?_eq (token : Token) (atEnd : Bool) (within : t.pos ≤ text.size) :
    token.move? text atEnd t = some (token.move text atEnd t) := by
  cases token with
  | literal bytes => exact literal_move? bytes atEnd within
  | oneOf set => exact oneOf_move? set atEnd within
  | anyByte => rfl

end Token

end PatternVM
