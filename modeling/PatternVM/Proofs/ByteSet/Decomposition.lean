import Mathlib.Data.List.Chain
import PatternVM.Proofs.ByteSet.Words

/-!
# The decomposition of a set into ranges

Ranges decompose a set of bytes if they ascend, no two of them touch, and they cover the members and no other bytes
(`Decomposes`). There is just one such list for a set: its first range begins at the least member and ends directly
below the first byte from there that is no member (`Decomposes.unique`). So it does not matter from which end the
members are collapsed, or how they are packed: the ranges are this decomposition, and the set can be made out of them
again (`ranges_canonical`).
-/

namespace PatternVM

namespace ByteRange

/-- Collapses one more byte, which is above those before. The last range is widened to it if it ends directly below, and
a range of its own is opened otherwise. -/
def widen (ranges : List ByteRange) (b : UInt8) : List ByteRange :=
  match ranges.getLast? with
  | some r =>
    -- In 8 bits, the number after the greatest byte would be 0.
    if r.hi.toUInt16 + 1 = b.toUInt16 then ranges.dropLast ++ [⟨r.lo, b⟩] else ranges ++ [⟨b, b⟩]
  | none => [⟨b, b⟩]

/-- Collapses ascending bytes into ranges, from the first byte to the last. -/
def gather (bytes : List UInt8) : List ByteRange := bytes.foldl widen []

/-- The edits that add the bytes of some ranges. -/
def insertions (ranges : List ByteRange) : List ByteSet.Edit := ranges.map fun r => .insertRange r.lo r.hi

/-- The ranges ascend, no two of them touch, and they cover the members and no other bytes. -/
structure Decomposes (ranges : List ByteRange) (members : Set UInt8) : Prop where
  ordered : ∀ r ∈ ranges, r.lo ≤ r.hi
  apart : ranges.IsChain fun r next => r.hi.toNat + 2 ≤ next.lo.toNat
  covers : ∀ b, b ∈ members ↔ ∃ r ∈ ranges, r.Covers b

variable {ranges others init rest rest' : List ByteRange} {r r' : ByteRange} {members : Set UInt8} {bytes : List UInt8}
  {b c : UInt8}

/-! ## A set has one decomposition -/

namespace Decomposes

/-- Each range is apart from all that are behind it, since every range in between ascends. -/
lemma pairwise (h : Decomposes ranges members) :
    ranges.Pairwise fun r later => r.hi.toNat + 2 ≤ later.lo.toNat := by
  obtain ⟨ordered, apart, -⟩ := h
  induction apart with
  | nil => exact .nil
  | singleton r => exact List.pairwise_singleton _ r
  | @cons_cons r next rest gap _ ih =>
    obtain ⟨-, ordered⟩ := List.forall_mem_cons.mp ordered
    have behind := ih ordered
    refine List.pairwise_cons.mpr ⟨?_, behind⟩
    intro later mem
    rcases List.mem_cons.mp mem with rfl | mem
    · exact gap
    · have next_le := UInt8.le_iff_toNat_le.mp (ordered next List.mem_cons_self)
      have gap_later := (List.pairwise_cons.mp behind).1 later mem
      omega

/-- Between the first range and any later one at least one byte is missing. -/
lemma gap (h : Decomposes (r :: rest) members) (mem : r' ∈ rest) : r.hi.toNat + 2 ≤ r'.lo.toNat :=
  (List.pairwise_cons.mp h.pairwise).1 r' mem

/-- Without ranges there are no members. -/
lemma notMem_of_nil (h : Decomposes [] members) : b ∉ members := by
  intro mem
  obtain ⟨r, mem_nil, -⟩ := (h.covers b).mp mem
  cases mem_nil

/-- The first range begins with a member. -/
lemma lo_mem (h : Decomposes (r :: rest) members) : r.lo ∈ members :=
  (h.covers r.lo).mpr ⟨r, List.mem_cons_self, UInt8.le_refl r.lo, h.ordered r List.mem_cons_self⟩

/-- No member lies before the first range. -/
lemma lo_le (h : Decomposes (r :: rest) members) (mem : b ∈ members) : r.lo ≤ b := by
  obtain ⟨q, mem_q, low, -⟩ := (h.covers b).mp mem
  rcases List.mem_cons.mp mem_q with rfl | mem_q
  · exact low
  · have ordered := UInt8.le_iff_toNat_le.mp (h.ordered r List.mem_cons_self)
    have gap := h.gap mem_q
    rw [UInt8.le_iff_toNat_le] at low ⊢
    omega

/-- Behind the first range are the members above it. -/
lemma tail (h : Decomposes (r :: rest) members) : Decomposes rest {b | b ∈ members ∧ r.hi < b} where
  ordered q mem := h.ordered q (List.mem_cons_of_mem r mem)
  apart := h.apart.tail
  covers b := by
    rw [Set.mem_ofPred_eq, h.covers b]
    constructor
    · rintro ⟨⟨q, mem, covers⟩, above⟩
      rcases List.mem_cons.mp mem with rfl | mem
      · exact absurd covers.2 (UInt8.not_le.mpr above)
      · exact ⟨q, mem, covers⟩
    · rintro ⟨q, mem, covers⟩
      have gap := h.gap mem
      have low := UInt8.le_iff_toNat_le.mp covers.1
      exact ⟨⟨q, List.mem_cons_of_mem r mem, covers⟩, UInt8.lt_iff_toNat_lt.mpr (by omega)⟩

/-- The first range ends where the next byte is no member. -/
lemma notMem_of_next (h : Decomposes (r :: rest) members) (next : b.toNat = r.hi.toNat + 1) : b ∉ members := by
  intro mem
  have above : r.hi < b := UInt8.lt_iff_toNat_lt.mpr (by omega)
  obtain ⟨q, mem_q, low, -⟩ := (h.tail.covers b).mp ⟨mem, above⟩
  have gap := h.gap mem_q
  rw [UInt8.le_iff_toNat_le] at low
  omega

/-- If the first ranges of two decompositions begin at the same byte, neither ends before the other. -/
lemma hi_le (h : Decomposes (r :: rest) members) (h' : Decomposes (r' :: rest') members) (lo : r.lo = r'.lo) :
    r.hi ≤ r'.hi := by
  by_contra above
  have lt := UInt8.lt_iff_toNat_lt.mp (UInt8.not_le.mp above)
  have lt_size := r.hi.toNat_lt
  have next : (UInt8.ofNat (r'.hi.toNat + 1)).toNat = r'.hi.toNat + 1 := Nat.mod_eq_of_lt (by omega)
  have ordered' := UInt8.le_iff_toNat_le.mp (h'.ordered r' List.mem_cons_self)
  have covers : r.Covers (.ofNat (r'.hi.toNat + 1)) := by
    rw [Covers, lo, UInt8.le_iff_toNat_le, UInt8.le_iff_toNat_le, next]
    omega
  exact h'.notMem_of_next next ((h.covers _).mpr ⟨r, List.mem_cons_self, covers⟩)

/-- A set has one decomposition at most. -/
theorem unique (h : Decomposes ranges members) (h' : Decomposes others members) : ranges = others := by
  induction ranges generalizing others members with
  | nil =>
    cases others with
    | nil => rfl
    | cons r' rest' => exact absurd h'.lo_mem h.notMem_of_nil
  | cons r rest ih =>
    cases others with
    | nil => exact absurd h.lo_mem h'.notMem_of_nil
    | cons r' rest' =>
      have lo : r.lo = r'.lo := UInt8.le_antisymm (h.lo_le h'.lo_mem) (h'.lo_le h.lo_mem)
      have hi : r.hi = r'.hi := UInt8.le_antisymm (h.hi_le h' lo) (h'.hi_le h lo.symm)
      have behind : rest = rest' := ih h.tail (hi ▸ h'.tail)
      cases r
      cases r'
      cases lo
      cases hi
      rw [behind]

/-- Whatever decomposes a set that is decomposed already is the same list of ranges. -/
lemma iff_eq (h : Decomposes ranges members) : Decomposes others members ↔ others = ranges :=
  ⟨fun h' => h'.unique h, fun eq => eq ▸ h⟩

end Decomposes

/-! ## Members collapsed from the last one down -/

/-- Collapsed bytes leave a gap between each range and the next one. -/
lemma isChain_collapse (ascending : bytes.Pairwise (· < ·)) :
    (collapse bytes).IsChain fun r next => r.hi.toNat + 2 ≤ next.lo.toNat := by
  induction bytes with
  | nil => exact .nil
  | cons b rest ih =>
    obtain ⟨below, ascending⟩ := List.pairwise_cons.mp ascending
    have chain := ih ascending
    rw [collapse]
    split
    · exact .singleton _
    · rename_i first others eq
      have mem_first : first ∈ collapse rest := eq ▸ List.mem_cons_self
      rw [eq] at chain
      split
      · -- Where a range ends is all that matters for the ranges behind it.
        exact List.isChain_cons.mpr (List.isChain_cons.mp chain)
      · rename_i gap
        have lo_mem : first.lo ∈ rest :=
          exists_covers_collapse.mp ⟨first, mem_first, UInt8.le_refl _, ordered_of_mem_collapse mem_first⟩
        have lt := UInt8.lt_iff_toNat_lt.mp (below _ lo_mem)
        refine .cons_cons ?_ chain
        show b.toNat + 2 ≤ first.lo.toNat
        omega

/-- Collapsing bytes in ascending order decomposes the set of these bytes. -/
lemma decomposes_collapse (ascending : bytes.Pairwise (· < ·)) : Decomposes (collapse bytes) {b | b ∈ bytes} where
  ordered _ mem := ordered_of_mem_collapse mem
  apart := isChain_collapse ascending
  covers _ := exists_covers_collapse.symm

/-! ## Members collapsed from the first one up -/

/-- One more byte continues the last range if it comes next, and begins a range of its own otherwise. -/
lemma widen_concat (init : List ByteRange) (r : ByteRange) (b : UInt8) :
    widen (init ++ [r]) b =
      if r.hi.toNat + 1 = b.toNat then init ++ [⟨r.lo, b⟩] else init ++ [r] ++ [⟨b, b⟩] := by
  have next : r.hi.toUInt16 + 1 = b.toUInt16 ↔ r.hi.toNat + 1 = b.toNat := by
    have lt := r.hi.toNat_lt
    have small : (r.hi.toUInt16 + 1).toNat = r.hi.toNat + 1 := by
      rw [UInt16.toNat_add, UInt8.toNat_toUInt16]
      exact Nat.mod_eq_of_lt (by show _ + 1 < _; omega)
    rw [← UInt16.toNat_inj, small, UInt8.toNat_toUInt16]
  simp only [widen, List.getLast?_concat, List.dropLast_concat, next]

/-- A range that is widened by the byte above it covers that byte too. -/
lemma covers_widened_above (next : r.hi.toNat + 1 = b.toNat) (ordered : r.lo ≤ r.hi) :
    Covers ⟨r.lo, b⟩ c ↔ c = b ∨ r.Covers c := by
  simp only [Covers, UInt8.le_iff_toNat_le, ← UInt8.toNat_inj] at ordered ⊢
  omega

namespace Decomposes

/-- A byte that the last range does not touch has a range of its own. -/
lemma opened (h : Decomposes ranges members) (gap : ∀ r ∈ ranges.getLast?, r.hi.toNat + 2 ≤ b.toNat) :
    Decomposes (ranges ++ [⟨b, b⟩]) (insert b members) where
  ordered := List.forall_mem_append.mpr ⟨h.ordered, List.forall_mem_singleton.mpr (UInt8.le_refl b)⟩
  apart := by
    refine List.isChain_append.mpr ⟨h.apart, .singleton _, ?_⟩
    rintro r last _ ⟨⟩
    exact gap r last
  covers c := by
    rw [Set.mem_insert_iff, h.covers c]
    simp only [List.mem_append, List.mem_singleton, or_and_right, exists_or, exists_eq_left, covers_single, or_comm]

/-- A byte directly above the last range belongs to it. -/
lemma widened (h : Decomposes (init ++ [r]) members) (next : r.hi.toNat + 1 = b.toNat) :
    Decomposes (init ++ [⟨r.lo, b⟩]) (insert b members) := by
  obtain ⟨ordered_init, ordered⟩ := List.forall_mem_append.mp h.ordered
  have ordered_r := List.forall_mem_singleton.mp ordered
  refine ⟨List.forall_mem_append.mpr ⟨ordered_init, List.forall_mem_singleton.mpr ?_⟩, ?_, fun c => ?_⟩
  · rw [UInt8.le_iff_toNat_le] at ordered_r ⊢
    show r.lo.toNat ≤ b.toNat
    omega
  · -- Where a range begins is all that matters for the ranges before it.
    obtain ⟨chain, -, gap⟩ := List.isChain_append.mp h.apart
    refine List.isChain_append.mpr ⟨chain, .singleton _, ?_⟩
    rintro last mem _ ⟨⟩
    exact gap last mem r rfl
  · rw [Set.mem_insert_iff, h.covers c]
    simp only [List.mem_append, List.mem_singleton, or_and_right, exists_or, exists_eq_left,
      covers_widened_above next ordered_r, or_left_comm]

/-- One more byte: what decomposes the bytes so far becomes what decomposes them and the new one. -/
lemma widen (h : Decomposes ranges members) (above : ∀ c ∈ members, c < b) :
    Decomposes (ByteRange.widen ranges b) (insert b members) := by
  rcases List.eq_nil_or_concat ranges with rfl | ⟨init, r, rfl⟩
  · exact h.opened (b := b) nofun
  · rw [List.concat_eq_append] at h ⊢
    have last : r ∈ init ++ [r] := List.mem_append_right init List.mem_cons_self
    have hi_mem : r.hi ∈ members := (h.covers r.hi).mpr ⟨r, last, h.ordered r last, UInt8.le_refl r.hi⟩
    have lt := UInt8.lt_iff_toNat_lt.mp (above r.hi hi_mem)
    rw [widen_concat]
    split
    · rename_i next
      exact h.widened next
    · rename_i gap
      refine h.opened fun q eq => ?_
      rw [List.getLast?_concat] at eq
      cases eq
      omega

end Decomposes

/-- Gathering bytes in ascending order decomposes the set of these bytes too. -/
lemma decomposes_gather (ascending : bytes.Pairwise (· < ·)) : Decomposes (gather bytes) {b | b ∈ bytes} := by
  induction bytes using List.reverseRecOn with
  | nil => exact ⟨nofun, .nil, fun b => by simp [gather]⟩
  | append_singleton bytes b ih =>
    obtain ⟨ascending, -, below⟩ := List.pairwise_append.mp ascending
    have more : {c | c ∈ bytes ++ [b]} = insert b {c | c ∈ bytes} := by
      ext c
      simp [or_comm]
    rw [gather, List.foldl_concat, more]
    exact (ih ascending).widen fun c mem => below c mem b List.mem_cons_self

/-- Ascending bytes are collapsed into the same ranges from both ends. -/
theorem gather_eq_collapse (ascending : bytes.Pairwise (· < ·)) : gather bytes = collapse bytes :=
  (decomposes_gather ascending).unique (decomposes_collapse ascending)

/-! ## The set made again -/

/-- What is left of the insertions of some ranges are the bytes that one of the ranges covers. -/
lemma members_insertions (ranges : List ByteRange) :
    ByteSet.members (insertions ranges) = {b | ∃ r ∈ ranges, r.Covers b} := by
  have onto (members : Set UInt8) :
      (insertions ranges).foldl ByteSet.Edit.on members = members ∪ {b | ∃ r ∈ ranges, r.Covers b} := by
    induction ranges generalizing members with
    | nil => simp [insertions]
    | cons r rest ih =>
      rw [insertions, List.map_cons, List.foldl_cons]
      refine (ih _).trans ?_
      ext b
      simp [ByteSet.Edit.on, Covers, or_assoc]
  rw [ByteSet.members, onto, Set.empty_union]

/-- The insertions of the ranges of a decomposition bring its members back. -/
lemma Decomposes.members_insertions (h : Decomposes ranges members) :
    ByteSet.members (insertions ranges) = members := by
  rw [ByteRange.members_insertions]
  exact Set.ext fun b => (h.covers b).symm

end ByteRange

open ByteRange

namespace ByteSet

variable {s : ByteSet} {ranges : List ByteRange}

/-- The ranges of a set decompose it. -/
lemma decomposes_ranges (s : ByteSet) : Decomposes s.ranges {b | s.contains b} := by
  have listed : {b | s.contains b = true} = {b | b ∈ s.toList} := Set.ext fun b => mem_toList.symm
  rw [listed]
  exact decomposes_collapse s.pairwise_toList

/-- The insertions of the ranges that a set decomposes into bring the set back. -/
lemma ofEdits_insertions (h : Decomposes ranges {b | s.contains b}) : ofEdits (insertions ranges) = s := by
  refine ext_contains fun b => ?_
  rw [Bool.eq_iff_iff, contains_ofEdits_iff, h.members_insertions]
  rfl

end ByteSet

namespace ByteWords

variable {w : ByteWords} {s : ByteSet}

/-- The members as ranges, collapsed from the first one up. -/
def ranges (w : ByteWords) : List ByteRange := gather w.toList

/-- Every layout in words holds a set. -/
lemma exists_holds (w : ByteWords) : ∃ s : ByteSet, w.Holds s := by
  refine ⟨.ofList w.toList, fun b => ?_⟩
  have mem : b ∈ w.toList ↔ w.contains b := by
    simp only [toList, List.mem_filter, List.mem_map, List.mem_range]
    exact ⟨And.right, fun mem => ⟨⟨b.toNat, b.toNat_lt, UInt8.ofNat_toNat⟩, mem⟩⟩
  rw [Bool.eq_iff_iff, ByteSet.ofList, ByteSet.contains_foldl_insert, ByteSet.contains_empty, Bool.false_or,
    List.contains_iff_mem, mem]

/-- A set and its layout in words have the same ranges. -/
lemma Holds.ranges_eq (h : w.Holds s) : w.ranges = s.ranges := by
  rw [ranges, h.toList_eq]
  exact gather_eq_collapse s.pairwise_toList

/-- The ranges of a set are its one decomposition: they ascend, each begins at least two above the end of the one
before, they cover the members and no other bytes, and no other list is like that. With their bytes added to the empty
set, the set is there again. This is so for a set in one word of 256 bits, and for one in eight words whose members are
collapsed from the first one up. -/
theorem ranges_canonical (s : ByteSet) (w : ByteWords) :
    (∀ ranges, Decomposes ranges {b | s.contains b} ↔ ranges = s.ranges) ∧
    .ofEdits (insertions s.ranges) = s ∧
    (∀ ranges, Decomposes ranges {b | w.contains b} ↔ ranges = w.ranges) ∧
    .ofEdits (insertions w.ranges) = w := by
  obtain ⟨t, holds⟩ := w.exists_holds
  have same : {b | w.contains b = true} = {b | t.contains b} := Set.ext fun b => by
    rw [Set.mem_ofPred_eq, holds b, Set.mem_ofPred_eq]
  refine ⟨fun _ => s.decomposes_ranges.iff_eq, ByteSet.ofEdits_insertions s.decomposes_ranges, ?_, ?_⟩
  · rw [holds.ranges_eq, same]
    exact fun _ => t.decomposes_ranges.iff_eq
  · rw [holds.ranges_eq, (Holds.ofEdits _).eq_iff holds]
    exact ByteSet.ofEdits_insertions t.decomposes_ranges

/-- The first range can begin at the least byte, and the last one end at the greatest. -/
example : (ByteSet.ofList [10]).complement.ranges = [⟨0, 9⟩, ⟨11, 255⟩] := by decide +kernel

end ByteWords

end PatternVM
