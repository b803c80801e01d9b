import TypeSearch.Fnv

/-!
Ranges of positions in a source text.
-/

namespace TypeSearch

structure Span where
  start : Int
  stop : Int
  deriving DecidableEq, Repr, Inhabited

namespace Span

def zero : Span := ⟨0, 0⟩

def between (first last : Span) : Span := ⟨first.start, last.stop⟩

def ofOption (span : Option Span) : Span := span.getD zero

def text (span : Span) : String :=
  if span.start = span.stop then toString span.start
  else toString span.start ++ "-" ++ toString span.stop

/-- A position as an unsigned word, in two's complement. -/
def word (position : Int) : UInt64 := UInt64.ofInt position

def hash (span : Span) : UInt64 :=
  Fnv.words Fnv.offsetBasis [word span.start, word span.stop]

end Span

structure Place where
  file : String
  span : Span
  deriving DecidableEq, Repr, Inhabited

end TypeSearch
