/-!
# Sets of bytes

A `ByteSet` is a set of byte values, packed into one vector of 256 bits: byte `b` is a member when bit `b`
is set. Each operation has a lemma that says what it does to membership, which is the only view of a set
that the rest of the library needs (`ext_contains`).
-/

namespace PatternVM

/-- A set of byte values, one bit for each. -/
structure ByteSet where
  bits : BitVec 256
  deriving DecidableEq

namespace ByteSet

/-- The set without members. -/
def empty : ByteSet := ⟨0#256⟩

/-- Whether `b` is a member. -/
def contains (s : ByteSet) (b : UInt8) : Bool := s.bits.getLsbD b.toNat

/-- Adds `b`. -/
def insert (s : ByteSet) (b : UInt8) : ByteSet := ⟨s.bits ||| BitVec.twoPow 256 b.toNat⟩

/-- Takes `b` out. -/
def erase (s : ByteSet) (b : UInt8) : ByteSet := ⟨s.bits &&& ~~~BitVec.twoPow 256 b.toNat⟩

/-- Adds all bytes from `lo` to `hi`, both included; none if `lo` is above `hi`. The bits to set are those
that are neither below `lo` nor above `hi`. -/
def insertRange (s : ByteSet) (lo hi : UInt8) : ByteSet :=
  ⟨s.bits ||| (BitVec.allOnes 256 <<< lo.toNat &&& BitVec.allOnes 256 >>> (255 - hi.toNat))⟩

/-- The bytes that are not members. -/
def complement (s : ByteSet) : ByteSet := ⟨~~~s.bits⟩

/-- The set of the listed bytes. -/
def ofList (bytes : List UInt8) : ByteSet := bytes.foldl insert empty

/-- The set of the bytes from `lo` to `hi`, both included. -/
def ofRange (lo hi : UInt8) : ByteSet := empty.insertRange lo hi

/-- How many bytes are members, as the number of bits that are set. -/
def count (s : ByteSet) : Nat := s.bits.cpop.toNat

/-- Whether no byte is a member. -/
def isEmpty (s : ByteSet) : Bool := s.bits == 0#256

/-- The members in ascending order. -/
def toList (s : ByteSet) : List UInt8 :=
  ((List.range 256).map UInt8.ofNat).filter s.contains

/-! ## Membership -/

/-- The empty set contains no byte. -/
@[simp] theorem contains_empty (b : UInt8) : empty.contains b = false := by
  simp [contains, empty]

/-- After a byte has been added, a set contains it and what it contained before. -/
@[simp] theorem contains_insert (s : ByteSet) (b c : UInt8) :
    (s.insert b).contains c = (s.contains c || c == b) := by
  have := b.toNat_lt
  have same : (b.toNat = c.toNat) ↔ c = b := by
    rw [UInt8.toNat_inj, eq_comm]
  simp [contains, insert, BitVec.getLsbD_twoPow, this, same, Bool.beq_eq_decide_eq]

/-- After a byte has been removed, a set contains what it contained before but for this byte. -/
@[simp] theorem contains_erase (s : ByteSet) (b c : UInt8) :
    (s.erase b).contains c = (s.contains c && c != b) := by
  have := c.toNat_lt
  have same : (c.toNat = b.toNat) ↔ c = b := UInt8.toNat_inj
  simp_all [contains, erase, bne, Bool.beq_eq_decide_eq]

/-- After a range has been added, a set contains the bytes from one end to the other and what it contained before. -/
@[simp] theorem contains_insertRange (s : ByteSet) (lo hi c : UInt8) :
    (s.insertRange lo hi).contains c = (s.contains c || (lo ≤ c && c ≤ hi)) := by
  have := hi.toNat_lt
  have := c.toNat_lt
  simp only [contains, insertRange, BitVec.getLsbD_or, BitVec.getLsbD_and, BitVec.getLsbD_shiftLeft,
    BitVec.getLsbD_ushiftRight, BitVec.getLsbD_allOnes, UInt8.le_iff_toNat_le]
  congr 1
  rw [Bool.eq_iff_iff]
  simp
  omega

/-- The complement contains exactly the bytes that are not in the set. -/
@[simp] theorem contains_complement (s : ByteSet) (b : UInt8) :
    s.complement.contains b = !s.contains b := by
  have := b.toNat_lt
  simp_all [contains, complement]

/-- Sets with the same members are equal. -/
theorem ext_contains {s t : ByteSet} (h : ∀ b, s.contains b = t.contains b) : s = t := by
  cases s with
  | mk x =>
    cases t with
    | mk y =>
      congr 1
      apply BitVec.eq_of_getLsbD_eq
      intro i lt
      have := h (UInt8.ofNat i)
      simpa [contains, Nat.mod_eq_of_lt lt] using this

end ByteSet

end PatternVM
