import Mathlib.Data.Set.Card
import PatternVM.ByteSet.Edit
import PatternVM.Proofs.ByteSet.Ranges

/-!
# The members of a set

A `ByteSet` that has been made by any edits is the set of bytes that the same operations on sets make (`members`).
What it answers is said of that set: the list of the members, their number, and whether there is one (`Shows`).
-/

namespace PatternVM

/-! ## Counting bits -/

/-- The population count is the number of indices whose bit is set. -/
lemma toNat_cpop_eq_countP {n : Nat} (x : BitVec n) : x.cpop.toNat = (List.range n).countP x.getLsbD := by
  have upTo (k : Nat) : x.cpopNatRec k 0 = (List.range k).countP x.getLsbD := by
    induction k with
    | zero => rfl
    | succ k ih =>
      rw [BitVec.cpopNatRec_succ, BitVec.cpopNatRec_add, ih, List.range_succ, List.countP_append,
        List.countP_singleton]
      cases x.getLsbD k <;> rfl
  rw [BitVec.toNat_cpop, upTo]

namespace ByteSet

/-- The set of bytes that an edit makes out of the set `members`. -/
def Edit.on (members : Set UInt8) : Edit → Set UInt8
  | .clear => ∅
  | .replaceByList bytes => {b | b ∈ bytes}
  | .replaceByRange lo hi => {b | lo ≤ b ∧ b ≤ hi}
  | .insert b => members ∪ {b}
  | .insertRange lo hi => members ∪ {b | lo ≤ b ∧ b ≤ hi}
  | .erase b => members \ {b}
  | .complement => membersᶜ

/-- The set of bytes that a history of edits makes out of the empty one. -/
def members (edits : List Edit) : Set UInt8 := edits.foldl Edit.on ∅

/-- What can be asked of a set of bytes, answered as it is for the set `members`. -/
structure Shows (members : Set UInt8) (contains : UInt8 → Bool) (list : List UInt8) (count : Nat)
    (isEmpty : Bool) : Prop where
  contains : ∀ b, contains b ↔ b ∈ members
  ascending : list.Pairwise (· < ·)
  mem_list : ∀ b, b ∈ list ↔ b ∈ members
  count : count = members.ncard
  isEmpty : isEmpty ↔ members = ∅

variable {s : ByteSet} {edits : List Edit}

/-! ## Members one by one -/

/-- After a list of bytes has been added, a set contains these bytes and what it contained before. -/
lemma contains_foldl_insert (s : ByteSet) (bytes : List UInt8) (c : UInt8) :
    (bytes.foldl insert s).contains c = (s.contains c || bytes.contains c) := by
  induction bytes generalizing s with
  | nil => exact (Bool.or_false _).symm
  | cons b rest ih => rw [List.foldl_cons, ih, contains_insert, Bool.or_assoc, List.contains_cons]

/-- Whether a byte is in a set is told by the bit with its number. -/
lemma contains_ofNat {k : Nat} (s : ByteSet) (lt : k < 256) : s.contains (.ofNat k) = s.bits.getLsbD k := by
  rw [contains, UInt8.toNat_ofNat_of_lt' lt]

/-- A set is empty if no byte is in it. -/
lemma isEmpty_iff : s.isEmpty ↔ ∀ b, s.contains b = false := by
  rw [isEmpty, beq_iff_eq]
  constructor
  · intro clear b
    rw [contains, clear]
    exact BitVec.getLsbD_zero
  · intro none
    have eq : s = empty := ext_contains fun b => (none b).trans (contains_empty b).symm
    rw [eq]
    rfl

/-- The bytes of a set are listed in ascending order. -/
lemma pairwise_toList (s : ByteSet) : s.toList.Pairwise (· < ·) := by
  refine List.Pairwise.filter _ (List.pairwise_map.mpr ?_)
  refine List.pairwise_lt_range.imp_of_mem fun {i j} mem_i mem_j lt => ?_
  have toNat_i : (UInt8.ofNat i).toNat = i := UInt8.toNat_ofNat_of_lt' (List.mem_range.mp mem_i)
  have toNat_j : (UInt8.ofNat j).toNat = j := UInt8.toNat_ofNat_of_lt' (List.mem_range.mp mem_j)
  rw [UInt8.lt_iff_toNat_lt, toNat_i, toNat_j]
  exact lt

/-- There are as many bytes in the list as there are numbers whose byte is in the set. -/
lemma length_toList (s : ByteSet) : s.toList.length = (List.range 256).countP fun k => s.contains (.ofNat k) := by
  rw [toList, ← List.countP_eq_length_filter, List.countP_map]
  rfl

/-- There are as many bits set as there are members listed. -/
lemma count_eq_length_toList (s : ByteSet) : s.count = s.toList.length := by
  rw [count, toNat_cpop_eq_countP, length_toList]
  refine List.countP_congr fun k mem => ?_
  rw [contains_ofNat s (List.mem_range.mp mem)]

/-- The list of a set has as many bytes as the set has members. -/
lemma length_toList_eq_ncard (s : ByteSet) : s.toList.length = {b | s.contains b}.ncard := by
  have nodup : s.toList.Nodup := s.pairwise_toList.imp fun lt => UInt8.ne_of_lt lt
  have listed : {b | s.contains b = true} = (s.toList.toFinset : Set UInt8) := by
    ext b
    rw [List.coe_toFinset]
    exact mem_toList.symm
  rw [listed, Set.ncard_coe_finset, List.toFinset_card_of_nodup nodup]

/-! ## Edits -/

/-- An edit does to the set what it does to its members. -/
lemma contains_apply_iff {members : Set UInt8} (h : ∀ b, s.contains b ↔ b ∈ members) (edit : Edit) (b : UInt8) :
    (s.apply edit).contains b ↔ b ∈ edit.on members := by
  cases edit with
  | clear => simp [apply, Edit.on]
  | replaceByList bytes => simp [apply, Edit.on, ofList, contains_foldl_insert]
  | replaceByRange lo hi => simp [apply, Edit.on, ofRange]
  | insert a => simp [apply, Edit.on, h, or_comm]
  | insertRange lo hi => simp [apply, Edit.on, h]
  | erase a => simp [apply, Edit.on, h]
  | complement => simp [apply, Edit.on, ← h]

/-- A set made by edits contains the members that the edits leave. -/
lemma contains_ofEdits_iff (edits : List Edit) (b : UInt8) : (ofEdits edits).contains b ↔ b ∈ members edits := by
  have all {s : ByteSet} {members : Set UInt8} (h : ∀ b, s.contains b ↔ b ∈ members) :
      (edits.foldl apply s).contains b ↔ b ∈ edits.foldl Edit.on members := by
    induction edits generalizing s members with
    | nil => exact h b
    | cons edit rest ih => exact ih (contains_apply_iff h edit)
  refine all fun b => ?_
  rw [contains_empty]
  exact iff_of_false Bool.false_ne_true (Set.notMem_empty b)

/-- Histories of edits make the same set of bytes just if all bytes are answered alike. -/
lemma members_eq_iff {others : List Edit} :
    members edits = members others ↔ ∀ b, (ofEdits edits).contains b = (ofEdits others).contains b := by
  rw [Set.ext_iff]
  refine forall_congr' fun b => ?_
  rw [← contains_ofEdits_iff, ← contains_ofEdits_iff]
  exact Bool.eq_iff_iff.symm

/-- Whatever a set made by edits shows of itself fits the members that the edits leave. -/
lemma shows_ofEdits (edits : List Edit) :
    Shows (members edits) (ofEdits edits).contains (ofEdits edits).toList (ofEdits edits).count
      (ofEdits edits).isEmpty where
  contains := contains_ofEdits_iff edits
  ascending := pairwise_toList _
  mem_list b := mem_toList.trans (contains_ofEdits_iff edits b)
  count := by
    rw [count_eq_length_toList, length_toList_eq_ncard]
    exact congrArg Set.ncard (Set.ext (contains_ofEdits_iff edits))
  isEmpty := by
    rw [isEmpty_iff, Set.eq_empty_iff_forall_notMem]
    refine forall_congr' fun b => ?_
    rw [← contains_ofEdits_iff, Bool.not_eq_true]

end ByteSet

end PatternVM
