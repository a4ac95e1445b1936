import Mathlib.Tactic.Common
import PatternVM.Proofs.ByteSet.Members

/-!
# Sets of bytes in eight words

Another layout of a set of bytes: eight words of 32 bits, in which a byte has its bit in the word that its upper three
bits name, at the place that its lower five bits name. Two bytes never share a bit (`mod_eq_iff`), so each operation
does the same to the members as on a `ByteSet` (`Holds`), and both layouts show the same set of bytes after any edits
(`members_of_edits`).
-/

namespace PatternVM

/-- A set of byte values, packed into eight words of 32 bits. -/
structure ByteWords where
  words : Vector UInt32 8
  deriving DecidableEq

namespace ByteWords

/-- The upper three bits of a byte name one of eight words. -/
lemma toNat_shiftRight_lt (b : UInt8) : b.toNat >>> 5 < 8 := by
  have := b.toNat_lt
  rw [Nat.shiftRight_eq_div_pow]
  omega

/-- The number of the word in which a byte has its bit. -/
def room (b : UInt8) : Fin 8 := ⟨b.toNat >>> 5, toNat_shiftRight_lt b⟩

/-- The bit of a byte within its word. -/
def mask (b : UInt8) : UInt32 := 1 <<< (b &&& 0x1f).toUInt32

/-- Eight words without any bit. -/
def empty : ByteWords := ⟨.replicate 8 0⟩

/-- Whether the bit of a byte is set in its word. -/
def contains (w : ByteWords) (b : UInt8) : Bool := w.words[room b] &&& mask b != 0

/-- Changes the word of `b`. -/
def modify (w : ByteWords) (b : UInt8) (f : UInt32 → UInt32) : ByteWords :=
  ⟨w.words.set (room b) (f w.words[room b])⟩

/-- Sets the bit of a byte. -/
def insert (w : ByteWords) (b : UInt8) : ByteWords := w.modify b (· ||| mask b)

/-- Clears the bit of a byte. -/
def erase (w : ByteWords) (b : UInt8) : ByteWords := w.modify b (· &&& ~~~mask b)

/-- Adds the bytes from `lo` to `hi`, one after the other. -/
def insertRange (w : ByteWords) (lo hi : UInt8) : ByteWords :=
  ((List.range' lo.toNat (hi.toNat + 1 - lo.toNat)).map UInt8.ofNat).foldl insert w

/-- Turns all bits of all words. -/
def complement (w : ByteWords) : ByteWords := ⟨w.words.map (~~~·)⟩

/-- Sets the bits of some bytes. -/
def ofList (bytes : List UInt8) : ByteWords := bytes.foldl insert empty

/-- Sets the bits of the bytes from `lo` to `hi`. -/
def ofRange (lo hi : UInt8) : ByteWords := empty.insertRange lo hi

/-- The numbers of bits that are set in the words, taken together. -/
def count (w : ByteWords) : Nat := (w.words.toList.map (·.toBitVec.cpop.toNat)).sum

/-- Whether all words are 0. -/
def isEmpty (w : ByteWords) : Bool := w.words.all (· == 0)

/-- The bytes whose bit is set, in ascending order. -/
def toList (w : ByteWords) : List UInt8 :=
  ((List.range 256).map UInt8.ofNat).filter w.contains

/-- Carries an edit out on the words. -/
def apply (w : ByteWords) : ByteSet.Edit → ByteWords
  | .clear => empty
  | .replaceByList bytes => ofList bytes
  | .replaceByRange lo hi => ofRange lo hi
  | .insert b => w.insert b
  | .insertRange lo hi => w.insertRange lo hi
  | .erase b => w.erase b
  | .complement => w.complement

/-- The words that some edits make, beginning with none set. -/
def ofEdits (edits : List ByteSet.Edit) : ByteWords := edits.foldl apply empty

variable {w w' : ByteWords} {b c : UInt8}

/-! ## Bits and bytes -/

/-- The number of a bit within its word is below 32. -/
lemma mod_lt (b : UInt8) : b.toNat % 32 < 32 := Nat.mod_lt b.toNat (Nat.succ_pos 31)

/-- The word of a byte is the one with the number of the byte divided by 32. -/
lemma val_room (b : UInt8) : (room b).val = b.toNat / 32 := Nat.shiftRight_eq_div_pow b.toNat 5

/-- Two bytes with their bits in the same word are the same if these are the same bit. -/
lemma mod_eq_iff (here : (room b).val = room c) : b.toNat % 32 = c.toNat % 32 ↔ c = b := by
  rw [val_room, val_room] at here
  rw [← UInt8.toNat_inj]
  omega

/-- The mask of a byte has a single bit, with the number of the byte within its word. -/
lemma toBitVec_mask (b : UInt8) : (mask b).toBitVec = BitVec.twoPow 32 (b.toNat % 32) := by
  have low : (b &&& 0x1f).toNat = b.toNat % 32 := by
    rw [UInt8.toNat_and]
    exact Nat.and_two_pow_sub_one_eq_mod b.toNat 5
  have shift : ((b &&& 0x1f).toUInt32.toBitVec % 32).toNat = b.toNat % 32 := by
    rw [BitVec.toNat_umod, UInt32.toNat_toBitVec, UInt8.toNat_toUInt32, low]
    exact Nat.mod_mod b.toNat 32
  rw [mask, UInt32.toBitVec_shiftLeft, BitVec.twoPow_eq, BitVec.shiftLeft_eq', shift]
  rfl

/-- A bit is set in the mask of a byte if it is the bit of that byte. -/
lemma getLsbD_mask (b c : UInt8) :
    (mask b).toBitVec.getLsbD (c.toNat % 32) = decide (b.toNat % 32 = c.toNat % 32) := by
  rw [toBitVec_mask, BitVec.getLsbD_twoPow, decide_eq_true (mod_lt b), Bool.true_and]

/-- A byte is a member if its bit is set in its word. -/
lemma contains_eq (w : ByteWords) (b : UInt8) :
    w.contains b = (w.words[(room b).val]).toBitVec.getLsbD (b.toNat % 32) := by
  have nonzero : BitVec.twoPow 32 (b.toNat % 32) ≠ 0#32 := by
    intro zero
    have bit := congrArg (·.getLsbD (b.toNat % 32)) zero
    simp [mod_lt] at bit
  rw [contains, Bool.eq_iff_iff, bne_iff_ne, ne_eq, ← UInt32.toBitVec_inj, UInt32.toBitVec_and, toBitVec_mask,
    BitVec.and_twoPow, Fin.getElem_fin]
  split
  · rename_i set
    exact iff_of_true nonzero set
  · rename_i clear
    exact iff_of_false (not_not_intro rfl) clear

/-- Changing the word of a byte changes the bits of that word only. -/
lemma contains_modify (w : ByteWords) (b c : UInt8) (f : UInt32 → UInt32) :
    (w.modify b f).contains c =
      if (room b).val = room c then (f w.words[(room c).val]).toBitVec.getLsbD (c.toNat % 32) else w.contains c := by
  rw [contains_eq, contains_eq, modify, Vector.getElem_set]
  split
  · rename_i same
    simp only [Fin.getElem_fin, same]
  · rfl

/-- Setting a bit puts its byte in and leaves all others as they are. -/
lemma contains_insert (w : ByteWords) (b c : UInt8) : (w.insert b).contains c = (w.contains c || c == b) := by
  rw [insert, contains_modify]
  split
  · rename_i here
    rw [UInt32.toBitVec_or, BitVec.getLsbD_or, getLsbD_mask, ← contains_eq, Bool.beq_eq_decide_eq]
    exact congrArg (w.contains c || ·) (decide_eq_decide.mpr (mod_eq_iff here))
  · rename_i elsewhere
    have ne : c ≠ b := fun eq => elsewhere (eq ▸ rfl)
    simp [ne]

/-- Clearing a bit takes its byte out and leaves all others as they are. -/
lemma contains_erase (w : ByteWords) (b c : UInt8) : (w.erase b).contains c = (w.contains c && c != b) := by
  rw [erase, contains_modify]
  split
  · rename_i here
    rw [UInt32.toBitVec_and, BitVec.getLsbD_and, UInt32.toBitVec_not, BitVec.getLsbD_not, getLsbD_mask, ← contains_eq,
      decide_eq_true (mod_lt c), Bool.true_and, bne, Bool.beq_eq_decide_eq]
    exact congrArg (w.contains c && !·) (decide_eq_decide.mpr (mod_eq_iff here))
  · rename_i elsewhere
    have ne : c ≠ b := fun eq => elsewhere (eq ▸ rfl)
    simp [ne]

/-- Turning all bits turns the answer for every byte. -/
lemma contains_complement (w : ByteWords) (b : UInt8) : w.complement.contains b = !w.contains b := by
  rw [contains_eq, contains_eq, complement, Vector.getElem_map, UInt32.toBitVec_not, BitVec.getLsbD_not,
    decide_eq_true (mod_lt b), Bool.true_and]

/-- No byte is in the words without any bit. -/
lemma contains_empty (b : UInt8) : empty.contains b = false := by
  rw [contains_eq, empty, Vector.getElem_replicate]
  exact BitVec.getLsbD_zero

/-- The bit of the byte `k`. -/
lemma contains_ofNat {k : Nat} (w : ByteWords) (lt : k < 256) :
    w.contains (.ofNat k) = (w.words.toList[k / 32]?.getD 0).toBitVec.getLsbD (k % 32) := by
  have toNat : (UInt8.ofNat k).toNat = k := Nat.mod_eq_of_lt lt
  have word_lt : k / 32 < w.words.toList.length := by
    rw [Vector.length_toList]
    omega
  rw [contains_eq, toNat, List.getElem?_eq_getElem word_lt]
  simp only [val_room, toNat]
  rfl

/-- Words with the same members are equal. -/
lemma ext_contains (same : ∀ b, w.contains b = w'.contains b) : w = w' := by
  obtain ⟨words⟩ := w
  obtain ⟨words'⟩ := w'
  congr 1
  ext i lt_i : 1
  rw [← UInt32.toBitVec_inj]
  apply BitVec.eq_of_getLsbD_eq
  intro j lt_j
  have bit := same (.ofNat (32 * i + j))
  have toNat : (UInt8.ofNat (32 * i + j)).toNat = 32 * i + j := Nat.mod_eq_of_lt (by omega)
  have div : (32 * i + j) / 32 = i := by omega
  have mod : (32 * i + j) % 32 = j := by omega
  simpa only [contains_eq, val_room, toNat, div, mod] using bit

/-- All words are 0 exactly if no byte is in them. -/
lemma isEmpty_iff : w.isEmpty ↔ ∀ b, w.contains b = false := by
  constructor
  · intro clear b
    rw [isEmpty, Vector.all_eq_true] at clear
    rw [contains_eq, eq_of_beq (clear (room b) (room b).isLt)]
    exact BitVec.getLsbD_zero
  · intro none
    have eq : w = empty := ext_contains fun b => (none b).trans (contains_empty b).symm
    rw [eq, isEmpty, empty, Vector.all_replicate]
    rfl

end ByteWords

/-- The bits of several words are counted word by word. -/
lemma sum_map_cpop (words : List UInt32) :
    (words.map (·.toBitVec.cpop.toNat)).sum =
      (List.range (32 * words.length)).countP fun k => (words[k / 32]?.getD 0).toBitVec.getLsbD (k % 32) := by
  induction words with
  | nil => rfl
  | cons word words ih =>
    have first : (List.range 32).countP (fun k => ((word :: words)[k / 32]?.getD 0).toBitVec.getLsbD (k % 32)) =
        (List.range 32).countP word.toBitVec.getLsbD := by
      refine List.countP_congr fun k mem => ?_
      have lt := List.mem_range.mp mem
      rw [Nat.div_eq_of_lt lt, Nat.mod_eq_of_lt lt]
      rfl
    rw [List.map_cons, List.sum_cons, ih, List.length_cons, Nat.mul_succ, Nat.add_comm (32 * _), List.range_add,
      List.countP_append, first, toNat_cpop_eq_countP, List.countP_map]
    congr 1
    refine List.countP_congr fun k mem => ?_
    have div : (32 + k) / 32 = k / 32 + 1 := by omega
    have mod : (32 + k) % 32 = k % 32 := by omega
    simp only [Function.comp_apply, div, mod, List.getElem?_cons_succ]

namespace ByteWords

/-- The bytes that `insertRange` adds. -/
lemma contains_between (lo hi c : UInt8) :
    ((List.range' lo.toNat (hi.toNat + 1 - lo.toNat)).map UInt8.ofNat).contains c =
      (decide (lo ≤ c) && decide (c ≤ hi)) := by
  have := hi.toNat_lt
  rw [Bool.eq_iff_iff, List.contains_iff_mem, Bool.and_eq_true, decide_eq_true_eq, decide_eq_true_eq, List.mem_map,
    UInt8.le_iff_toNat_le, UInt8.le_iff_toNat_le]
  constructor
  · rintro ⟨n, mem, rfl⟩
    rw [List.mem_range'_1] at mem
    have toNat : (UInt8.ofNat n).toNat = n := Nat.mod_eq_of_lt (by omega)
    omega
  · rintro ⟨ge, le⟩
    exact ⟨c.toNat, List.mem_range'_1.mpr (by omega), UInt8.ofNat_toNat⟩

/-- The words hold the members of a set. -/
def Holds (w : ByteWords) (s : ByteSet) : Prop := ∀ b, w.contains b = s.contains b

namespace Holds

variable {w : ByteWords} {s : ByteSet}

/-- The words without any bit hold the empty set. -/
lemma empty : ByteWords.empty.Holds .empty := fun b => (contains_empty b).trans (ByteSet.contains_empty b).symm

/-- Setting the bit of a byte adds the byte to the set. -/
lemma insert (h : w.Holds s) (b : UInt8) : (w.insert b).Holds (s.insert b) := fun c => by
  rw [contains_insert, ByteSet.contains_insert, h c]

/-- Clearing the bit of a byte removes the byte from the set. -/
lemma erase (h : w.Holds s) (b : UInt8) : (w.erase b).Holds (s.erase b) := fun c => by
  rw [contains_erase, ByteSet.contains_erase, h c]

/-- Turning all bits gives the complement of the set. -/
lemma complement (h : w.Holds s) : w.complement.Holds s.complement := fun b => by
  rw [contains_complement, ByteSet.contains_complement, h b]

/-- Setting the bits of some bytes adds these bytes to the set. -/
lemma foldl_insert (h : w.Holds s) (bytes : List UInt8) :
    (bytes.foldl ByteWords.insert w).Holds (bytes.foldl ByteSet.insert s) := by
  induction bytes generalizing w s with
  | nil => exact h
  | cons b rest ih => exact ih (h.insert b)

/-- Setting the bits of a range adds the range to the set. -/
lemma insertRange (h : w.Holds s) (lo hi : UInt8) : (w.insertRange lo hi).Holds (s.insertRange lo hi) := fun c => by
  rw [ByteWords.insertRange, h.foldl_insert, ByteSet.contains_foldl_insert, ByteSet.contains_insertRange,
    contains_between]

/-- An edit of the words is an edit of the set. -/
lemma apply (h : w.Holds s) (edit : ByteSet.Edit) : (w.apply edit).Holds (s.apply edit) := by
  cases edit with
  | clear => exact empty
  | replaceByList bytes => exact empty.foldl_insert bytes
  | replaceByRange lo hi => exact empty.insertRange lo hi
  | insert b => exact h.insert b
  | insertRange lo hi => exact h.insertRange lo hi
  | erase b => exact h.erase b
  | complement => exact h.complement

/-- Edits that begin with nothing make words that hold the set that they make. -/
lemma ofEdits (edits : List ByteSet.Edit) : (ByteWords.ofEdits edits).Holds (.ofEdits edits) := by
  have all {w : ByteWords} {s : ByteSet} (h : w.Holds s) :
      (edits.foldl ByteWords.apply w).Holds (edits.foldl ByteSet.apply s) := by
    induction edits generalizing w s with
    | nil => exact h
    | cons edit rest ih => exact ih (h.apply edit)
  exact all empty

/-- Words list the bytes of the set that they hold. -/
lemma toList_eq (h : w.Holds s) : w.toList = s.toList := congrArg (List.filter · _) (funext h)

/-- Words are empty if the set that they hold is. -/
lemma isEmpty_eq (h : w.Holds s) : w.isEmpty = s.isEmpty := by
  rw [Bool.eq_iff_iff, isEmpty_iff, ByteSet.isEmpty_iff]
  exact forall_congr' fun b => by rw [h b]

/-- Words count as many bytes as the set that they hold. -/
lemma count_eq (h : w.Holds s) : w.count = s.count := by
  rw [count, sum_map_cpop, Vector.length_toList, ByteSet.count_eq_length_toList, ByteSet.length_toList]
  refine List.countP_congr fun k mem => ?_
  rw [← contains_ofNat w (List.mem_range.mp mem), h]

/-- Words with the members of equal sets are equal. -/
lemma eq_iff {t : ByteSet} (h : w.Holds s) (h' : w'.Holds t) : w = w' ↔ s = t := by
  constructor
  · rintro rfl
    exact ByteSet.ext_contains fun b => (h b).symm.trans (h' b)
  · rintro rfl
    exact ext_contains fun b => (h b).trans (h' b).symm

end Holds

/-- Whatever edits have been made, a set of bytes in one word of 256 bits and one in eight words both show the set that
the same operations on sets make, and they are equal to another one just if they show the same. -/
theorem members_of_edits (edits others : List ByteSet.Edit) :
    let members := ByteSet.members edits
    let s := ByteSet.ofEdits edits
    let w := ofEdits edits
    ByteSet.Shows members s.contains s.toList s.count s.isEmpty ∧
    ByteSet.Shows members w.contains w.toList w.count w.isEmpty ∧
    (s = .ofEdits others ↔ members = ByteSet.members others) ∧
    (w = ofEdits others ↔ members = ByteSet.members others) := by
  intro members s w
  have holds : w.Holds s := .ofEdits edits
  have shows_s : ByteSet.Shows members s.contains s.toList s.count s.isEmpty := ByteSet.shows_ofEdits edits
  have equal : s = .ofEdits others ↔ members = ByteSet.members others := by
    rw [ByteSet.members_eq_iff]
    exact ⟨fun eq b => congrArg (·.contains b) eq, ByteSet.ext_contains⟩
  refine ⟨shows_s, ?_, equal, (holds.eq_iff (.ofEdits others)).trans equal⟩
  rw [holds.toList_eq, holds.count_eq, holds.isEmpty_eq, show w.contains = s.contains from funext holds]
  exact shows_s

end ByteWords

end PatternVM
