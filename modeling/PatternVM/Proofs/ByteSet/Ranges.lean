import Mathlib.Tactic.Common
import PatternVM.ByteSet.Ranges

/-!
# The ranges of a set

The ranges of a `ByteSet` cover its members and no other bytes, so they determine the set.
-/

namespace PatternVM

namespace ByteRange

variable {bytes : List UInt8} {b c : UInt8} {r : ByteRange}

/-- The bytes from `lo` to `hi`. -/
def Covers (r : ByteRange) (b : UInt8) : Prop := r.lo ≤ b ∧ b ≤ r.hi

/-- A range of one byte covers that byte only. -/
lemma covers_single : Covers ⟨b, b⟩ c ↔ c = b := by
  simp only [Covers, UInt8.le_iff_toNat_le, ← UInt8.toNat_inj]
  omega

/-- A range that is widened by the byte below it covers that byte too. -/
lemma covers_widened (below : b.toNat + 1 = r.lo.toNat) (ordered : r.lo ≤ r.hi) :
    Covers ⟨b, r.hi⟩ c ↔ c = b ∨ r.Covers c := by
  simp only [Covers, UInt8.le_iff_toNat_le, ← UInt8.toNat_inj] at ordered ⊢
  omega

/-- No range of collapsed bytes ends before it begins. -/
lemma ordered_of_mem_collapse (mem : r ∈ collapse bytes) : r.lo ≤ r.hi := by
  induction bytes generalizing r with
  | nil => cases mem
  | cons b rest ih =>
    rw [collapse] at mem
    split at mem
    · rw [List.mem_singleton.1 mem]
      exact UInt8.le_refl b
    · next first others eq =>
      rw [eq] at ih
      split at mem
      · next below =>
        rcases List.mem_cons.1 mem with rfl | mem
        · have := ih List.mem_cons_self
          rw [UInt8.le_iff_toNat_le] at this ⊢
          show b.toNat ≤ first.hi.toNat
          omega
        · exact ih (List.mem_cons_of_mem _ mem)
      · rcases List.mem_cons.1 mem with rfl | mem
        · exact UInt8.le_refl b
        · exact ih mem

/-- The ranges into which bytes collapse cover just these bytes. -/
lemma exists_covers_collapse : (∃ r ∈ collapse bytes, r.Covers c) ↔ c ∈ bytes := by
  induction bytes with
  | nil => simp [collapse]
  | cons b rest ih =>
    rw [List.mem_cons, ← ih, collapse]
    split
    · next eq => simp [eq, covers_single]
    · next first others eq =>
      have ordered : first.lo ≤ first.hi := ordered_of_mem_collapse (eq ▸ List.mem_cons_self)
      rw [eq]
      split
      · next below => simp [covers_widened below ordered, or_assoc]
      · simp [covers_single]

end ByteRange

namespace ByteSet

variable {s t : ByteSet} {b : UInt8}

/-- The bytes in the list of a set are its members. -/
lemma mem_toList : b ∈ s.toList ↔ s.contains b := by
  simp only [toList, List.mem_filter, List.mem_map, List.mem_range]
  exact ⟨And.right, fun mem => ⟨⟨b.toNat, b.toNat_lt, UInt8.ofNat_toNat⟩, mem⟩⟩

/-- A byte is a member just if one of the ranges covers it. -/
theorem contains_iff_covers : s.contains b ↔ ∃ r ∈ s.ranges, r.Covers b := by
  rw [ranges, ByteRange.exists_covers_collapse, mem_toList]

end ByteSet

end PatternVM
