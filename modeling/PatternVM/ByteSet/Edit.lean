import PatternVM.ByteSet.Basic

/-!
# Editing a set of bytes

The ways to make a `ByteSet` step by step, as data, so that a whole history of edits can be replayed.
-/

namespace PatternVM.ByteSet

/-- One step in the making of a set. The first three forget the set made so far. -/
inductive Edit
  | clear
  | replaceByList (bytes : List UInt8)
  | replaceByRange (lo hi : UInt8)
  | insert (b : UInt8)
  | insertRange (lo hi : UInt8)
  | erase (b : UInt8)
  | complement

/-- The set after one more edit. -/
def apply (s : ByteSet) : Edit → ByteSet
  | .clear => empty
  | .replaceByList bytes => ofList bytes
  | .replaceByRange lo hi => ofRange lo hi
  | .insert b => s.insert b
  | .insertRange lo hi => s.insertRange lo hi
  | .erase b => s.erase b
  | .complement => s.complement

/-- The set that a history of edits makes out of the empty one. -/
def ofEdits (edits : List Edit) : ByteSet := edits.foldl apply empty

end PatternVM.ByteSet
