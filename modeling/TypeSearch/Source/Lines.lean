/-!
The lines of a source text, as the byte offsets at which they start. A line break at the very end of
a text starts no further line.
-/

namespace TypeSearch

structure Lines where
  starts : Array Nat
  size : Nat
  deriving Repr, Inhabited

namespace Lines

/-- The starts of the lines of `rest`, which begins at the byte `offset`; `pending` is set where a
line is to start. -/
def startsFrom : List Char → (offset : Nat) → (pending : Bool) → List Nat
  | [], _, _ => []
  | c :: rest, offset, pending =>
    let later := startsFrom rest (offset + c.utf8Size) (c == '\n')
    if pending then offset :: later else later

def ofText (text : String) : Lines :=
  ⟨(startsFrom text.toList 0 true).toArray, text.utf8ByteSize⟩

def count (lines : Lines) : Nat := lines.starts.size

def startOf (lines : Lines) (line : Nat) : Nat := lines.starts.getD (line - 1) 0

def position (lines : Lines) (offset : Nat) : Nat × Nat :=
  let before := lines.starts.toList.takeWhile (· ≤ offset)
  (before.length, offset - before.getLastD 0 + 1)

end Lines

end TypeSearch
