/-!
The numbers that fit in a word of 64 bits.
-/

namespace TypeSearch.Word

def count : Nat := 0x10000000000000000

def least : Int := -0x8000000000000000

def limit : Int := 0x8000000000000000

def signed? (n : Int) : Option Int := if least ≤ n ∧ n < limit then some n else none

def unsigned? (n : Nat) : Option Nat := if n < count then some n else none

end TypeSearch.Word
